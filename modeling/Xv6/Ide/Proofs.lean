import Xv6.Ide.Queue

/-!
# The driver does what the memory disk does

The queue's buffers, served by the memory disk one after another from the present state, give the
state that the memory disk has after all requests so far. Nothing is left when the queue is empty.
-/

open Lib Function

namespace Xv6.Ide

variable {Block : Type} {nproc nbuf : Nat}

namespace MemState

variable {m m' : MemState Block nproc nbuf} {b c : Fin nbuf} {p : Fin nproc} {q : List (Fin nbuf)}

def setBuf (m : MemState Block nproc nbuf) (b : Fin nbuf) (x : Buf Block nproc) : MemState Block nproc nbuf :=
  { m with buf := update m.buf b x }

/-- `iderw` by the process that holds the lock. -/
def serve (m : MemState Block nproc nbuf) (b : Fin nbuf) : Option (MemState Block nproc nbuf) :=
  (m.buf b).lock.bind fun p => m.iderw p b

def serveAll (m : MemState Block nproc nbuf) : List (Fin nbuf) → Option (MemState Block nproc nbuf)
  | [] => some m
  | b :: q => (m.serve b).bind fun m => m.serveAll q

structure Takes (x : Buf Block nproc) (disksize : Nat) (p : Fin nproc) : Prop where
  lock : x.lock = some p
  flags : ¬ (x.valid = true ∧ x.dirty = false)
  dev : x.dev = 1
  blockno : x.blockno < disksize

def served (m : MemState Block nproc nbuf) (b : Fin nbuf) : MemState Block nproc nbuf :=
  let x := m.buf b
  { m with
    memdisk := if x.dirty then update m.memdisk x.blockno x.data else m.memdisk
    buf := update m.buf b
      { x with data := if x.dirty then x.data else m.memdisk x.blockno, valid := true, dirty := false } }

theorem iderw_eq (h : Takes (m.buf b) m.disksize p) : m.iderw p b = some (m.served b) := by
  unfold iderw served
  have hblock := Nat.not_le.mpr h.blockno
  simp only [h.lock, h.dev, hblock, ne_eq, not_true_eq_false, if_false, if_neg h.flags]
  cases hd : (m.buf b).dirty <;> simp

theorem serve_eq (h : Takes (m.buf b) m.disksize p) : m.serve b = some (m.served b) := by
  unfold serve
  rw [h.lock]
  exact iderw_eq h

theorem served_of_ne (h : c ≠ b) : (m.served b).buf c = m.buf c := update_of_ne h ..

theorem served_setBuf (h : c ≠ b) (x : Buf Block nproc) : (m.setBuf c x).served b = (m.served b).setBuf c x := by
  unfold served setBuf
  simp only [update_of_ne h.symm, MemState.mk.injEq, true_and]
  exact update_comm h ..

def Ready (m : MemState Block nproc nbuf) (q : List (Fin nbuf)) : Prop := ∀ b ∈ q, ∃ p, Takes (m.buf b) m.disksize p

theorem Ready.tail (h : m.Ready (b :: q)) (hb : b ∉ q) : (m.served b).Ready q := by
  intro c hc
  have hne : c ≠ b := fun he => hb (he ▸ hc)
  obtain ⟨p, hp⟩ := h c (List.mem_cons_of_mem _ hc)
  refine ⟨p, ?_⟩
  rw [served_of_ne hne]
  exact hp

theorem Ready.serveAll_cons (h : m.Ready (b :: q)) : m.serveAll (b :: q) = (m.served b).serveAll q := by
  obtain ⟨p, hp⟩ := h b List.mem_cons_self
  rw [serveAll, serve_eq hp]
  rfl

theorem Ready.serves (h : m.Ready q) (hnd : q.Nodup) :
    ∃ m', m.serveAll q = some m' ∧ m'.disksize = m.disksize ∧ ∀ c, c ∉ q → m'.buf c = m.buf c := by
  induction q generalizing m with
  | nil => exact ⟨m, rfl, rfl, fun _ _ => rfl⟩
  | cons b q ih =>
    obtain ⟨hb, hnd⟩ := List.nodup_cons.mp hnd
    obtain ⟨m', hm', hsize, hsame⟩ := ih (h.tail hb) hnd
    refine ⟨m', by rw [h.serveAll_cons, hm'], hsize, fun c hc => ?_⟩
    rw [List.mem_cons, not_or] at hc
    rw [hsame c hc.2, served_of_ne hc.1]

theorem serveAll_append (q' : List (Fin nbuf)) : m.serveAll (q ++ q') = (m.serveAll q).bind fun m => m.serveAll q' := by
  induction q generalizing m with
  | nil => rfl
  | cons b q ih =>
    rw [List.cons_append, serveAll, serveAll, Option.bind_assoc]
    congr 1
    funext m'
    exact ih

theorem Ready.setBuf (h : m.Ready q) (hnd : q.Nodup) (hc : c ∉ q) (x : Buf Block nproc) :
    (m.setBuf c x).Ready q ∧ (m.setBuf c x).serveAll q = (m.serveAll q).map (·.setBuf c x) := by
  have hready : (m.setBuf c x).Ready q := by
    intro b hb
    have hne : b ≠ c := fun he => hc (he ▸ hb)
    obtain ⟨p, hp⟩ := h b hb
    refine ⟨p, ?_⟩
    unfold MemState.setBuf
    dsimp only
    rwa [update_of_ne hne]
  refine ⟨hready, ?_⟩
  induction q generalizing m with
  | nil => rfl
  | cons b q ih =>
    obtain ⟨hb, hnd⟩ := List.nodup_cons.mp hnd
    rw [List.mem_cons, not_or] at hc
    have htail := h.tail hb
    rw [h.serveAll_cons, hready.serveAll_cons, served_setBuf hc.1]
    refine ih htail hnd hc.2 ?_
    rw [← served_setBuf hc.1]
    exact hready.tail hb

end MemState

variable {s s' : State Block nproc nbuf} {b c : Fin nbuf} {p : Fin nproc} {q : List (Fin nbuf)}

def queuedBuf : Event Block nproc nbuf → Option (Fin nbuf)
  | .queued _ b => some b
  | _ => none

def askedBuf (p : Fin nproc) : Event Block nproc nbuf → Option (Fin nbuf)
  | .queued p' b => if p' = p then some b else none
  | _ => none

def answeredBuf (p : Fin nproc) : Event Block nproc nbuf → Option (Fin nbuf)
  | .returned p' b _ _ => if p' = p then some b else none
  | _ => none

def startedBuf : Event Block nproc nbuf → Option (Fin nbuf)
  | .started b => some b
  | _ => none

def completedBuf : Event Block nproc nbuf → Option (Fin nbuf)
  | .completed b => some b
  | _ => none

def bufs (f : Event Block nproc nbuf → Option (Fin nbuf)) (log : List (Event Block nproc nbuf)) : List (Fin nbuf) :=
  (log.filterMap f).reverse

theorem bufs_cons (f : Event Block nproc nbuf → Option (Fin nbuf)) (e : Event Block nproc nbuf)
    (log : List (Event Block nproc nbuf)) :
    bufs f (e :: log) = bufs f log ++ (f e).toList := by
  unfold bufs
  cases h : f e <;> simp [h]

def replay (m : MemState Block nproc nbuf) : List (Event Block nproc nbuf) → Option (MemState Block nproc nbuf)
  | [] => some m
  | .edited b x :: past => (replay m past).map (·.setBuf b x)
  | .queued p b :: past => (replay m past).bind (·.iderw p b)
  | _ :: past => replay m past

def State.mem (s : State Block nproc nbuf) : MemState Block nproc nbuf := ⟨FSSIZE, s.ide.disk 1, s.buf⟩

structure Inv (m₀ : MemState Block nproc nbuf) (s : State Block nproc nbuf) (q : List (Fin nbuf)) : Prop extends
    Queue q s where
  havedisk1 : s.havedisk1 = true
  ready : s.mem.Ready q
  done : ∀ p b, s.call p = some b → b ∉ q → (s.buf b).valid = true ∧ (s.buf b).dirty = false ∧ s.asleep p = false
  queued : bufs queuedBuf s.log = bufs completedBuf s.log ++ q
  started : bufs startedBuf s.log = bufs completedBuf s.log ++ q.take 1
  answered : ∀ p, bufs (askedBuf p) s.log = bufs (answeredBuf p) s.log ++ (s.call p).toList
  returned : ∀ p b v d, .returned p b v d ∈ s.log → v = true ∧ d = false
  refines : replay m₀ s.log = s.mem.serveAll q

variable {m₀ : MemState Block nproc nbuf}

variable (h : Inv m₀ s q)

section

include h

theorem edit_inv (hcall : s.call p = none) (hlock : (s.buf b).lock = none ∨ (s.buf b).lock = some p)
    (x : Buf Block nproc) : Inv m₀ { s with buf := update s.buf b x, log := .edited b x :: s.log } q := by
  have hfree := h.not_called hcall hlock
  obtain ⟨hready, hserve⟩ := h.ready.setBuf h.nodup (h.not_queued hfree) x
  refine ⟨h.edit hfree x _, h.havedisk1, hready, ?_, ?_, ?_, ?_, ?_, ?_⟩
  · intro p' b' hp'
    have hne : b' ≠ b := fun hb => hfree p' (hb ▸ hp')
    dsimp only
    rw [update_of_ne hne]
    exact h.done p' b' hp'
  · rw [bufs_cons, bufs_cons]
    simpa [queuedBuf, completedBuf] using h.queued
  · rw [bufs_cons, bufs_cons]
    simpa [startedBuf, completedBuf] using h.started
  · intro p'
    rw [bufs_cons, bufs_cons]
    simpa [askedBuf, answeredBuf] using h.answered p'
  · intro p' b' v d hret
    rcases List.mem_cons.mp hret with heq | hret
    · cases heq
    · exact h.returned p' b' v d hret
  · change (replay m₀ s.log).map _ = _
    rw [h.refines]
    exact hserve.symm

theorem Inv.join {link : Option (Fin nbuf) → Option (Fin nbuf)} {c : Controller Block}
    {log : List (Event Block nproc nbuf)} (hcall : s.call p = none)
    (ht : MemState.Takes (s.buf b) FSSIZE p) (hqueue : Queue (q ++ [b]) (s.joined p b link c log))
    (hdisk : c.disk = s.ide.disk)
    (hlog : q ≠ [] ∧ log = .queued p b :: s.log ∨ q = [] ∧ log = .started b :: .queued p b :: s.log) :
    Inv m₀ (s.joined p b link c log) (q ++ [b]) := by
  have hb := h.not_queued (h.not_called hcall (.inr ht.lock))
  have hmem : (s.joined p b link c log).mem = s.mem := by
    unfold State.mem State.joined
    rw [hdisk]
  have hqueued : bufs queuedBuf log = bufs queuedBuf s.log ++ [b] := by
    rcases hlog with ⟨-, rfl⟩ | ⟨-, rfl⟩ <;> simp [bufs_cons, queuedBuf]
  have hcompleted : bufs completedBuf log = bufs completedBuf s.log := by
    rcases hlog with ⟨-, rfl⟩ | ⟨-, rfl⟩ <;> simp [bufs_cons, completedBuf]
  have hasked : ∀ p', bufs (askedBuf p') log = bufs (askedBuf p') s.log ++ if p = p' then [b] else [] := by
    intro p'
    rcases hlog with ⟨-, rfl⟩ | ⟨-, rfl⟩ <;> simp only [bufs_cons, askedBuf] <;> split_ifs <;> simp
  have hanswered : ∀ p', bufs (answeredBuf p') log = bufs (answeredBuf p') s.log := by
    intro p'
    rcases hlog with ⟨-, rfl⟩ | ⟨-, rfl⟩ <;> simp [bufs_cons, answeredBuf]
  have hreplay : replay m₀ log = (replay m₀ s.log).bind (·.iderw p b) := by
    rcases hlog with ⟨-, rfl⟩ | ⟨-, rfl⟩ <;> rfl
  refine ⟨hqueue, h.havedisk1, ?_, ?_, ?_, ?_, ?_, ?_, ?_⟩
  · rw [hmem]
    intro x hx
    rcases List.mem_append.mp hx with hx | hx
    · exact h.ready x hx
    · obtain rfl := List.mem_singleton.mp hx
      exact ⟨p, ht⟩
  · intro p' b' hp' hb'
    rw [List.mem_append, List.mem_singleton, not_or] at hb'
    rcases joined_call hp' with ⟨-, rfl⟩ | ⟨hne, hp'⟩
    · exact absurd rfl hb'.2
    · unfold State.joined
      dsimp only
      rw [update_of_ne hne]
      exact h.done p' b' hp' hb'.1
  · change bufs queuedBuf log = bufs completedBuf log ++ _
    rw [hqueued, hcompleted, h.queued, List.append_assoc]
  · change bufs startedBuf log = bufs completedBuf log ++ _
    rw [hcompleted]
    rcases hlog with ⟨hq, rfl⟩ | ⟨rfl, rfl⟩
    · rw [bufs_cons, h.started, List.take_append_of_le_length (List.length_pos_iff.mpr hq)]
      simp [startedBuf]
    · have := h.started
      rw [bufs_cons, bufs_cons, this]
      simp [startedBuf]
  · intro p'
    change bufs (askedBuf p') log = bufs (answeredBuf p') log ++ (update s.call p (some b) p').toList
    rw [hasked, hanswered, h.answered]
    rcases eq_or_ne p' p with rfl | hne
    · rw [if_pos rfl, update_self, hcall]
      simp
    · rw [if_neg hne.symm, update_of_ne hne, List.append_nil]
  · intro p' b' v d hret
    apply h.returned p' b' v d
    rcases hlog with ⟨-, rfl⟩ | ⟨-, rfl⟩ <;> simpa [State.joined] using hret
  · obtain ⟨m', hm', hsize, hsame⟩ := h.ready.serves h.nodup
    change replay m₀ log = _
    rw [hmem, hreplay, h.refines, MemState.serveAll_append, hm']
    have ht' : MemState.Takes (m'.buf b) m'.disksize p := by
      rw [hsame b hb, hsize]
      exact ht
    change m'.iderw p b = (m'.serve b).bind fun m => some m
    rw [MemState.iderw_eq ht', MemState.serve_eq ht']
    rfl

/-- **No request panics or waits for the controller** in `iderw`. -/
theorem iderw_some (hcall : s.call p = none) (ht : MemState.Takes (s.buf b) FSSIZE p) :
    ∃ s', s.iderw p b = some s' := by
  obtain ⟨link, -, heq⟩ := h.iderw_eq hcall ht.lock ht.flags (by simp [h.havedisk1])
  rw [heq]
  split_ifs with hq
  · obtain ⟨c, hstart, -⟩ := idestart_eq (s := { s with link := link, log := .queued p b :: s.log }) ht.blockno
      (h.idle hq).1 (h.idle hq).2
    rw [hstart]
    exact ⟨_, rfl⟩
  · exact ⟨_, rfl⟩

theorem iderw_inv (hcall : s.call p = none) (ht : MemState.Takes (s.buf b) FSSIZE p)
    (hs : s.iderw p b = some s') : Inv m₀ s' (q ++ [b]) := by
  obtain ⟨hqueue, link, c, log, rfl, hdisk, hlog⟩ := h.toQueue.iderw hcall hs
  exact h.join hcall ht hqueue hdisk (hlog.imp (fun hl => ⟨hl.1, hl.2.2⟩) fun hl => ⟨hl.1, hl.2.2⟩)

theorem Inv.addr (hb : b ∈ q) : (s.buf b).addr = (1, (s.buf b).blockno) := by
  obtain ⟨p, hp⟩ := h.ready b hb
  unfold Buf.addr
  rw [show (s.buf b).dev = 1 from hp.dev]

theorem finish_inv {c : Controller Block} (hc : s.ide.finish = some c) :
    c.cmd = none ∧ Inv m₀ { s with ide := c } q := by
  obtain ⟨hqueue, b, rest, rfl, hcmd, hdisk⟩ := h.toQueue.finish hc
  have hready : (State.mem { s with ide := c }).Ready (b :: rest) := h.ready
  have hserved : (State.mem { s with ide := c }).served b = s.mem.served b := by
    unfold State.mem MemState.served
    dsimp only
    rw [hdisk, h.addr List.mem_cons_self]
    cases hd : (s.buf b).dirty <;> simp
  refine ⟨hcmd, hqueue, h.havedisk1, hready, h.done, h.queued, h.started, h.answered, h.returned, ?_⟩
  rw [hready.serveAll_cons, hserved, ← h.ready.serveAll_cons]
  exact h.refines

theorem Inv.served (hb : b ∈ q) (hfin : Finished s.ide (s.buf b)) :
    s.mem.served b = ⟨FSSIZE, s.ide.disk 1, update s.buf b ((s.buf b).filled s.ide.inp)⟩ := by
  have haddr := h.addr hb
  have hinp := hfin.inp
  have hdisk := hfin.disk
  rw [haddr] at hinp hdisk
  unfold MemState.served State.mem Buf.filled
  cases hd : (s.buf b).dirty with
  | false => simp [hd, hinp hd]
  | true => simp [hd, ← hdisk hd]

end

theorem Inv.leave {link : Option (Fin nbuf) → Option (Fin nbuf)} {rest : List (Fin nbuf)} {c : Controller Block}
    {log : List (Event Block nproc nbuf)} (h : Inv m₀ s (b :: rest)) (hqueue : Queue rest (s.left b link c log))
    (hfin : Finished s.ide (s.buf b)) (hdisk : c.disk = s.ide.disk)
    (hlog : rest = [] ∧ log = .completed b :: s.log ∨
      ∃ x, rest.head? = some x ∧ log = .started x :: .completed b :: s.log) :
    Inv m₀ (s.left b link c log) rest := by
  have hb := (List.nodup_cons.mp h.nodup).1
  have hstate : (s.left b link c log).mem = s.mem.served b := by
    rw [h.served List.mem_cons_self hfin, ← hdisk]
    rfl
  have hlogs : bufs queuedBuf log = bufs queuedBuf s.log ∧ bufs completedBuf log = bufs completedBuf s.log ++ [b] ∧
      bufs startedBuf log = bufs startedBuf s.log ++ rest.take 1 ∧ replay m₀ log = replay m₀ s.log ∧
      ∀ p, bufs (askedBuf p) log = bufs (askedBuf p) s.log ∧ bufs (answeredBuf p) log = bufs (answeredBuf p) s.log := by
    rcases hlog with ⟨rfl, rfl⟩ | ⟨x, hx, rfl⟩
    · simp [bufs_cons, queuedBuf, completedBuf, startedBuf, replay, askedBuf, answeredBuf]
    · cases rest with
      | nil => cases hx
      | cons y rest =>
        cases hx
        simp [bufs_cons, queuedBuf, completedBuf, startedBuf, replay, askedBuf, answeredBuf]
  obtain ⟨hqueued, hcompleted, hstarted, hreplay, hcalls⟩ := hlogs
  refine ⟨hqueue, h.havedisk1, ?_, ?_, ?_, ?_, ?_, ?_, ?_⟩
  · rw [hstate]
    exact h.ready.tail hb
  · intro p' b' hp' hb'
    change s.call p' = some b' at hp'
    unfold State.left
    dsimp only
    rw [hp', update_apply]
    rcases eq_or_ne b' b with rfl | hne
    · rw [if_pos rfl, if_pos rfl]
      exact ⟨rfl, rfl, rfl⟩
    · rw [if_neg hne, if_neg fun he => hne (Option.some.inj he)]
      exact h.done p' b' hp' fun hmem => hb' ((List.mem_cons.mp hmem).resolve_left hne)
  · change bufs queuedBuf log = bufs completedBuf log ++ _
    rw [hqueued, hcompleted, h.queued]
    simp
  · change bufs startedBuf log = bufs completedBuf log ++ _
    rw [hstarted, hcompleted, h.started]
    simp
  · intro p'
    change bufs (askedBuf p') log = bufs (answeredBuf p') log ++ _
    rw [(hcalls p').1, (hcalls p').2]
    exact h.answered p'
  · intro p' b' v d hret
    apply h.returned p' b' v d
    rcases hlog with ⟨-, rfl⟩ | ⟨x, -, rfl⟩ <;> simpa [State.left] using hret
  · change replay m₀ log = _
    rw [hstate, hreplay, h.refines, h.ready.serveAll_cons]

section

include h

theorem ideintr_inv (hirq : s.ide.irq = true) (hs : s.ideintr = some s') :
    ∃ b rest, q = b :: rest ∧ Inv m₀ s' rest := by
  obtain ⟨b, rest, rfl, hfin, hqueue, link, c, log, rfl, hdisk, -, hlog⟩ := h.toQueue.ideintr hirq hs
  exact ⟨b, rest, rfl, h.leave hqueue hfin hdisk hlog⟩

theorem Inv.ideintr_some (hirq : s.ide.irq = true) : ∃ s', s.ideintr = some s' := by
  refine h.ideintr_isSome hirq fun b hb => ?_
  obtain ⟨p, hp⟩ := h.ready b hb
  exact hp.blockno

theorem await_inv (hcall : s.call p = some b) : Inv m₀ (s.await p b) q := by
  have hqueue := h.toQueue.await hcall
  by_cases hb : b ∈ q
  · unfold State.await at hqueue ⊢
    rw [if_neg (h.flags b hb)] at hqueue ⊢
    have hsame : update s.call p (some b) = s.call := by rw [← hcall, update_eq_self]
    rw [hsame] at hqueue ⊢
    refine ⟨hqueue, h.havedisk1, h.ready, ?_, h.queued, h.started, h.answered, h.returned, h.refines⟩
    intro p' b' hcall' hb'
    have hne : p' ≠ p := by
      rintro rfl
      rw [hcall] at hcall'
      exact hb' (Option.some.inj hcall' ▸ hb)
    dsimp only
    rw [update_of_ne hne]
    exact h.done p' b' hcall' hb'
  · obtain ⟨hvalid, hdirty, hawake⟩ := h.done p b hcall hb
    have hdone : ∀ p' b', (s.await p b).call p' = some b' → b' ∉ q → (s.buf b').valid = true ∧
      (s.buf b').dirty = false ∧
        s.asleep p' = false := fun p' b' hp' => h.done p' b' (await_call hcall hp')
    unfold State.await at hqueue hdone ⊢
    rw [if_pos ⟨hvalid, hdirty⟩] at hqueue hdone ⊢
    refine ⟨hqueue, h.havedisk1, h.ready, hdone, ?_, ?_, ?_, ?_, h.refines⟩
    · simpa [bufs_cons, queuedBuf, completedBuf] using h.queued
    · simpa [bufs_cons, startedBuf, completedBuf] using h.started
    · intro p'
      have hans := h.answered p'
      rcases eq_or_ne p' p with rfl | hne
      · rw [hcall] at hans
        simpa [bufs_cons, askedBuf, answeredBuf] using hans
      · simpa [bufs_cons, askedBuf, answeredBuf, update_of_ne hne, hne.symm] using hans
    · intro p' b' v d hret
      rcases List.mem_cons.mp hret with heq | hret
      · cases heq
        exact ⟨hvalid, hdirty⟩
      · exact h.returned p' b' v d hret

theorem wake_inv (p : Fin nproc) : Inv m₀ { s with asleep := update s.asleep p false } q := by
  refine ⟨h.wake _, h.havedisk1, h.ready, ?_, h.queued, h.started, h.answered, h.returned, h.refines⟩
  intro p' b' hp' hb'
  obtain ⟨hvalid, hdirty, hawake⟩ := h.done p' b' hp' hb'
  refine ⟨hvalid, hdirty, ?_⟩
  dsimp only
  rw [update_apply, hawake, ite_self]

end

theorem init_inv (h : Init s) : Inv s.mem s [] := by
  refine ⟨.init h, h.havedisk1, nofun, fun p b hp => ?_, ?_, ?_, fun p => ?_, ?_, ?_⟩
  · rw [h.call] at hp
    cases hp
  · rw [h.log]
    rfl
  · rw [h.log]
    rfl
  · rw [h.log, h.call]
    rfl
  · rw [h.log]
    nofun
  · rw [h.log]
    rfl

def Act.Internal : Act Block nproc nbuf → Prop
  | .resume _ | .finish | .intr => True
  | _ => False

def awake (s : State Block nproc nbuf) : Finset (Fin nproc) := Finset.univ.filter fun p => s.call p ≠ none ∧
    s.asleep p = false

def work (s : State Block nproc nbuf) : Nat :=
  (nproc + 2) * ((bufs queuedBuf s.log).length - (bufs completedBuf s.log).length) + (if s.ide.cmd.isSome then 1
    else 0) + (awake s).card

theorem Inv.work_eq (h : Inv m₀ s q) :
    work s = (nproc + 2) * q.length + (if s.ide.cmd.isSome then 1 else 0) + (awake s).card := by
  unfold work
  rw [h.queued, List.length_append, Nat.add_sub_cancel_left]

theorem awake_await (hcall : s.call p = some b) (hawake : s.asleep p = false) :
    (awake (s.await p b)).card < (awake s).card := by
  apply Finset.card_lt_card
  rw [Finset.ssubset_iff_of_subset]
  · refine ⟨p, by simp [awake, hcall, hawake], ?_⟩
    unfold State.await
    split_ifs <;> simp [awake]
  · intro p' hp'
    unfold State.await at hp'
    rcases eq_or_ne p' p with rfl | hne
    · simp [awake, hcall, hawake]
    · split_ifs at hp' <;> simpa [awake, update_of_ne hne] using hp'

section

include h

theorem internal_inv {a : Act Block nproc nbuf} (ha : a.Internal) (hs : step s a = some s') :
    (∃ q', Inv m₀ s' q') ∧ work s' < work s := by
  cases a with
  | edit => cases ha
  | iderw => cases ha
  | wake => cases ha
  | resume p =>
    unfold step at hs
    dsimp only at hs
    split at hs
    · rename_i b hcall
      split_ifs at hs with hawake
      cases hs
      have hinv := await_inv h hcall
      have hlt := awake_await hcall hawake
      refine ⟨⟨q, hinv⟩, ?_⟩
      rw [h.work_eq, hinv.work_eq, await_ide]
      omega
    · cases hs
  | finish =>
    obtain ⟨c, hc, rfl⟩ := Option.map_eq_some_iff.mp hs
    obtain ⟨cmd, hcmd⟩ := finish_busy hc
    obtain ⟨hnone, hinv⟩ := finish_inv h hc
    refine ⟨⟨q, hinv⟩, ?_⟩
    have hawake : awake { s with ide := c } = awake s := rfl
    rw [h.work_eq, hinv.work_eq, hawake, hcmd, hnone]
    simp
  | intr =>
    unfold step at hs
    split_ifs at hs with hirq
    obtain ⟨b, rest, rfl, hinv⟩ := ideintr_inv h hirq hs
    refine ⟨⟨rest, hinv⟩, ?_⟩
    -- The processes that wake up and the next command are less than the request that is done.
    have hle : (awake s').card ≤ nproc := (Finset.card_le_univ _).trans_eq (Fintype.card_fin nproc)
    rw [h.work_eq, hinv.work_eq, List.length_cons, Nat.mul_succ]
    split_ifs <;> omega

theorem run_work (as : List (Act Block nproc nbuf)) (has : ∀ a ∈ as, a.Internal)
    (s₀ : State Block nproc nbuf) (hrun : (driver s₀).run s as = some s') : as.length + work s' ≤ work s := by
  induction as generalizing s q with
  | nil =>
    cases hrun
    simp
  | cons a as ih =>
    obtain ⟨t, ht, hrun⟩ := Option.bind_eq_some_iff.mp hrun
    obtain ⟨⟨q', hinv⟩, hlt⟩ := internal_inv h (has a List.mem_cons_self) ht
    have := ih hinv (fun a ha => has a (List.mem_cons_of_mem _ ha)) hrun
    rw [List.length_cons]
    omega

theorem Inv.progress (hcall : s.call p = some b) :
    ∃ a : Act Block nproc nbuf, a.Internal ∧ (step s a).isSome := by
  cases q with
  | nil =>
    refine ⟨.resume p, trivial, ?_⟩
    have hawake := (h.done p b hcall List.not_mem_nil).2.2
    unfold step
    simp [hcall, hawake]
  | cons y q =>
    rcases h.head y rfl with hunder | hfin
    · obtain ⟨c, hc, -⟩ := hunder.finish
      exact ⟨.finish, trivial, by simp [step, hc]⟩
    · obtain ⟨s', hs'⟩ := h.ideintr_some hfin.irq
      exact ⟨.intr, trivial, by simp [step, hfin.irq, hs']⟩

end

/-- The requests are what the memory disk takes. -/
def Asked (s : State Block nproc nbuf) : Act Block nproc nbuf → Prop
  | .iderw p b => MemState.Takes (s.buf b) FSSIZE p
  | _ => True

theorem step_inv {a : Act Block nproc nbuf} (h : Inv m₀ s q) (ha : Asked s a) (hs : step s a = some s') :
    ∃ q', Inv m₀ s' q' := by
  cases a with
  | edit p b x =>
    unfold step at hs
    dsimp only at hs
    split_ifs at hs with hcond
    cases hs
    exact ⟨q, edit_inv h hcond.1 hcond.2.1 x⟩
  | iderw p b =>
    unfold step at hs
    dsimp only at hs
    split_ifs at hs with hcall
    exact ⟨_, iderw_inv h hcall ha hs⟩
  | wake p =>
    cases hs
    exact ⟨q, wake_inv h p⟩
  | resume p => exact (internal_inv (a := .resume p) h trivial hs).1
  | finish => exact (internal_inv (a := .finish) h trivial hs).1
  | intr => exact (internal_inv (a := .intr) h trivial hs).1

theorem reach_inv {s₀ : State Block nproc nbuf} (h₀ : Init s₀) (h : (driver s₀).ReachIf Asked s) :
    ∃ q, Inv s₀.mem s q := by
  refine (driver s₀).reachIf_inv Asked (fun s => ∃ q, Inv s₀.mem s q) ?_ ?_ s h
  · rintro _ rfl
    exact ⟨[], init_inv h₀⟩
  · rintro s a s' ⟨q, hq⟩ ha hs
    exact step_inv hq ha hs

structure Refines (s₀ s : State Block nproc nbuf) : Prop where
  /-- The requests are completed in order, and only the first of the others is started. -/
  order : ∃ q, Chain s.link none q ∧ bufs queuedBuf s.log = bufs completedBuf s.log ++ q ∧
    bufs startedBuf s.log = bufs completedBuf s.log ++ q.take 1
  /-- Each call returns once, with `B_VALID` and without `B_DIRTY`. -/
  answered : ∀ p, bufs (askedBuf p) s.log = bufs (answeredBuf p) s.log ++ (s.call p).toList
  returned : ∀ p b v d, .returned p b v d ∈ s.log → v = true ∧ d = false
  /-- No call and no interrupt panics or waits for the controller. -/
  accepts : ∀ p b, s.call p = none → MemState.Takes (s.buf b) FSSIZE p → (s.iderw p b).isSome
  interrupts : s.ide.irq = true → s.ideintr.isSome
  /-- The calls end after so many steps, whatever the order. -/
  progress : (∃ p, s.call p ≠ none) → ∃ a : Act Block nproc nbuf, a.Internal ∧ (step s a).isSome
  ends : ∀ as s', (∀ a ∈ as, a.Internal) → (driver s₀).run s as = some s' → as.length ≤ work s
  /-- When no call is left, disk and buffers are those of the memory disk after the same requests one by one. -/
  final : (∀ p, s.call p = none) → bufs completedBuf s.log = bufs queuedBuf s.log ∧ replay s₀.mem s.log = some s.mem

/-- **The driver refines the memory disk.** -/
theorem driver_refines {s₀ : State Block nproc nbuf} (h₀ : Init s₀) (h : (driver s₀).ReachIf Asked s) :
    Refines s₀ s := by
  obtain ⟨q, hq⟩ := reach_inv h₀ h
  constructor
  · exact ⟨q, hq.chain, hq.queued, hq.started⟩
  · exact hq.answered
  · exact hq.returned
  · intro p b hcall ht
    obtain ⟨s', hs'⟩ := iderw_some hq hcall ht
    rw [hs']
    rfl
  · intro hirq
    obtain ⟨s', hs'⟩ := hq.ideintr_some hirq
    rw [hs']
    rfl
  · rintro ⟨p, hp⟩
    obtain ⟨b, hb⟩ := Option.ne_none_iff_exists'.mp hp
    exact hq.progress hb
  · intro as s' has hrun
    exact Nat.le_of_add_right_le (run_work hq as has s₀ hrun)
  · intro hidle
    have hnil : q = [] := by
      apply List.eq_nil_iff_forall_not_mem.mpr
      intro b hb
      obtain ⟨p, hp⟩ := hq.owner b hb
      rw [hidle] at hp
      cases hp
    subst hnil
    exact ⟨by rw [hq.queued, List.append_nil], hq.refines⟩

def twoBuffers : State Nat 2 2 where
  havedisk1 := true
  buf b := if b = 0 then ⟨some 0, true, true, 1, 5, 7⟩ else ⟨some 1, false, false, 1, 5, 0⟩
  link _ := none
  ide := ⟨0, 0, 0, 0, 0, none, false, 0, 0, fun _ _ => 0⟩
  call _ := none
  asleep _ := false
  log := []

instance (x : Buf Block nproc) (disksize : Nat) (p : Fin nproc) : Decidable (MemState.Takes x disksize p) :=
  decidable_of_iff (x.lock = some p ∧ ¬ (x.valid = true ∧ x.dirty = false) ∧ x.dev = 1 ∧ x.blockno < disksize)
    ⟨fun h => ⟨h.1, h.2.1, h.2.2.1, h.2.2.2⟩, fun h => ⟨h.lock, h.flags, h.dev, h.blockno⟩⟩

instance (s : State Block nproc nbuf) (a : Act Block nproc nbuf) : Decidable (Asked s a) :=
  match a with
  | .iderw p b => inferInstanceAs (Decidable (MemState.Takes (s.buf b) FSSIZE p))
  | .edit .. | .resume _ | .wake _ | .finish | .intr => .isTrue trivial

theorem driver_refines_twoBuffers : ∃ s, (driver twoBuffers).ReachIf Asked s ∧ Refines twoBuffers s ∧
    (s.buf 1).data = 7 ∧ s.ide.disk 1 5 = 7 ∧ s.call 1 = none := by
  have hrun : ((driver twoBuffers).runIf Asked twoBuffers [.iderw 0 0, .iderw 1 1, .finish, .intr, .resume 0, .finish,
    .intr, .resume 1]).map
      (fun s => ((s.buf 1).data, s.ide.disk 1 5, s.call 1)) = some (7, 7, none) := by decide +kernel
  obtain ⟨s, hreach, hval⟩ := (driver twoBuffers).reachIf_of_map rfl hrun
  simp only [Prod.mk.injEq] at hval
  exact ⟨s, hreach, driver_refines ⟨rfl, rfl, rfl, fun _ => rfl, rfl, rfl⟩ hreach, hval⟩

end Xv6.Ide
