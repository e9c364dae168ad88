import Mathlib
import Xv6.Lib.Fifo
import Xv6.Pipe.Code

/-!
# A pipe hands on every byte, in order

Readers get what writers stored, from the front and nothing else. A sleeper has a reason to sleep,
unless a writer fills the pipe and gives up before it has woken the readers.
-/

open Lib Function

namespace Xv6.Pipes

variable {nproc : Nat} {s s' : State nproc} {p : Fin nproc} {q : List UInt8} {log : List (Event nproc)}

def storedByte : Event nproc → Option UInt8
  | .stored _ b => some b
  | _ => none

def deliveredByte : Event nproc → Option UInt8
  | .delivered _ b => some b
  | _ => none

def stored (log : List (Event nproc)) : List UInt8 := (log.filterMap storedByte).reverse

def delivered (log : List (Event nproc)) : List UInt8 := (log.filterMap deliveredByte).reverse

section

variable (p : Fin nproc) (b : UInt8) (e : Event nproc) (log : List (Event nproc))

theorem stored_put : stored (.stored p b :: log) = stored log ++ [b] := by simp [stored, storedByte]

theorem delivered_get : delivered (.delivered p b :: log) = delivered log ++ [b] := by simp [delivered, deliveredByte]

theorem stored_cons (h : storedByte e = none) : stored (e :: log) = stored log := by simp [stored, h]

theorem delivered_cons (h : deliveredByte e = none) : delivered (e :: log) = delivered log := by simp [delivered, h]

end

structure Queued (s : State nproc) (q : List UInt8) : Prop where
  bytes : stored s.log = delivered s.log ++ q
  fifo : Fifo (2 ^ 32) PIPESIZE s.pipe.data s.pipe.nread s.pipe.nwrite (delivered s.log).length q

theorem PIPESIZE_lt : PIPESIZE < 2 ^ 32 := by unfold PIPESIZE; omega

theorem PIPESIZE_dvd : PIPESIZE ∣ 2 ^ 32 := ⟨2 ^ 23, rfl⟩

namespace Queued

theorem full (h : Queued s q) : s.pipe.full = true ↔ q.length = PIPESIZE := by
  unfold Pipe.full
  rw [decide_eq_true_iff]
  exact h.fifo.full_iff PIPESIZE_lt

theorem empty (h : Queued s q) : s.pipe.empty = true ↔ q = [] := by
  unfold Pipe.empty
  rw [decide_eq_true_iff]
  exact h.fifo.empty_iff PIPESIZE_lt

theorem put (h : Queued s q) (hfull : ¬ s.pipe.full = true) (p : Fin nproc) (b : UInt8) :
    Queued (s.put p b) (q ++ [b]) := by
  have hlt : q.length < PIPESIZE := Nat.lt_of_le_of_ne h.fifo.fits fun he => hfull (h.full.mpr he)
  constructor
  · unfold State.put
    rw [stored_put, delivered_cons _ _ rfl, h.bytes, List.append_assoc]
  · unfold State.put
    rw [delivered_cons _ _ rfl]
    exact h.fifo.put PIPESIZE_dvd hlt b

theorem get {b : UInt8} (h : Queued s (b :: q)) (p : Fin nproc) : Queued (s.get p) q := by
  have hb : s.pipe.get.1 = b := h.fifo.next PIPESIZE_dvd
  constructor
  · unfold State.get
    rw [stored_cons _ _ rfl, delivered_get, hb, h.bytes]
    simp
  · unfold State.get
    rw [delivered_get, List.length_append]
    exact h.fifo.skip

theorem congr (h : Queued s q) (hdata : s'.pipe.data = s.pipe.data) (hread : s'.pipe.nread = s.pipe.nread)
    (hwrite : s'.pipe.nwrite = s.pipe.nwrite) (hstored : stored s'.log = stored s.log)
    (hdelivered : delivered s'.log = delivered s.log) : Queued s' q := by
  refine ⟨by rw [hstored, hdelivered, h.bytes], ?_⟩
  rw [hdata, hread, hwrite, hdelivered]
  exact h.fifo

end Queued

/-- The write end is closed and every stored byte is delivered. -/
def Drained (past : List (Event nproc)) : Prop := .closed true ∈ past ∧ delivered past = stored past

/-- Each `piperead` that asked for bytes and got none came after that. -/
def Eof : List (Event nproc) → Prop
  | [] => True
  | e :: past => (∀ p n, e = .got p n 0 → 0 < n → Drained past) ∧ Eof past

theorem Eof.cons (h : Eof log) (e : Event nproc) (he : ∀ p n, e ≠ .got p n 0) : Eof (e :: log) :=
  ⟨fun p n hg => absurd hg (he p n), h⟩

theorem Eof.past (newer log : List (Event nproc)) (h : Eof (newer ++ log)) : Eof log := by
  induction newer with
  | nil => exact h
  | cons e newer ih => exact ih h.2

structure Inv (s : State nproc) : Prop where
  queued : ∃ q, Queued s q
  shut : s.pipe.writeopen = false → .closed true ∈ s.log
  eof : Eof s.log

theorem Inv.congr (h : Inv s) (hpipe : s'.pipe = s.pipe) (hlog : s'.log = s.log) : Inv s' := by
  obtain ⟨q, hq⟩ := h.queued
  refine ⟨⟨q, hq.congr (by rw [hpipe]) (by rw [hpipe]) (by rw [hpipe]) (by rw [hlog]) (by rw [hlog])⟩, ?_, ?_⟩
  · rw [hpipe, hlog]
    exact h.shut
  · rw [hlog]
    exact h.eof

theorem Inv.ret (h : Inv s) (p : Fin nproc) (e : Event nproc) (hs : storedByte e = none) (hd : deliveredByte e = none)
    (he : ∀ p n, e = .got p n 0 → 0 < n → Drained s.log) : Inv (s.ret p e) := by
  obtain ⟨q, hq⟩ := h.queued
  refine ⟨⟨q, hq.congr rfl rfl rfl (stored_cons _ _ hs) (delivered_cons _ _ hd)⟩, fun hw => ?_, he, h.eof⟩
  exact List.mem_cons_of_mem _ (h.shut hw)

theorem Inv.put (h : Inv s) (hfull : ¬ s.pipe.full = true) (p : Fin nproc) (b : UInt8) : Inv (s.put p b) := by
  obtain ⟨q, hq⟩ := h.queued
  exact ⟨⟨_, hq.put hfull p b⟩, fun hw => List.mem_cons_of_mem _ (h.shut hw), h.eof.cons _ nofun⟩

theorem Inv.get (h : Inv s) (hempty : ¬ s.pipe.empty = true) (p : Fin nproc) : Inv (s.get p) := by
  obtain ⟨q, hq⟩ := h.queued
  rcases q with _ | ⟨b, q⟩
  · exact absurd (hq.empty.mpr rfl) hempty
  · exact ⟨⟨q, hq.get p⟩, fun hw => List.mem_cons_of_mem _ (h.shut hw), h.eof.cons _ nofun⟩

theorem pipewrite_inv (n : Nat) (rest : List UInt8) (h : Inv s) : Inv (pipewrite p n rest s) := by
  induction rest generalizing s with
  | nil =>
    have hwoken : Inv (s.wakeup .nread) := h.congr rfl rfl
    exact hwoken.ret p _ rfl rfl nofun
  | cons b rest ih =>
    unfold pipewrite
    split_ifs with hfull hbad
    · exact h.ret p _ rfl rfl nofun
    · exact h.congr rfl rfl
    · exact ih (h.put hfull p b)

theorem readLoop_inv (k i : Nat) (h : Inv s) : Inv (readLoop p k i s).2 := by
  induction k generalizing i s with
  | zero => exact h
  | succ k ih =>
    unfold readLoop
    split_ifs with hempty
    · exact h
    · exact ih (i + 1) (h.get hempty p)

theorem readLoop_le (k i : Nat) (s : State nproc) : i ≤ (readLoop p k i s).1 := by
  induction k generalizing i s with
  | zero => exact le_rfl
  | succ k ih =>
    unfold readLoop
    split_ifs
    · exact le_rfl
    · exact Nat.le_of_succ_le (ih (i + 1) _)

theorem readLoop_zero (n : Nat) (hn : 0 < n) (h : (readLoop p n 0 s).1 = 0) :
    s.pipe.empty = true ∧ (readLoop p n 0 s).2 = s := by
  obtain ⟨k, rfl⟩ := Nat.exists_eq_succ_of_ne_zero (Nat.ne_of_gt hn)
  unfold readLoop at h ⊢
  split_ifs at h ⊢ with hempty
  · exact ⟨hempty, rfl⟩
  · have := readLoop_le (p := p) k (0 + 1) (s.get p)
    omega

theorem piperead_inv (n : Nat) (h : Inv s) : Inv (piperead p n s) := by
  unfold piperead
  split_ifs with hwait hkilled
  · exact h.ret p _ rfl rfl nofun
  · exact h.congr rfl rfl
  · have hwoken : Inv ((readLoop p n 0 s).2.wakeup .nwrite) := (readLoop_inv n 0 h).congr rfl rfl
    refine hwoken.ret p _ rfl rfl ?_
    rintro p' n' he hn
    obtain ⟨-, rfl, hzero⟩ := Event.got.inj he
    obtain ⟨hempty, hsame⟩ := readLoop_zero n hn (Int.ofNat_eq_zero.mp hzero)
    have hshut : s.pipe.writeopen = false := by
      rw [not_and, Bool.not_eq_true] at hwait
      exact hwait hempty
    obtain ⟨q, hq⟩ := h.queued
    have hlog : ((readLoop p n 0 s).2.wakeup .nwrite).log = s.log := by
      rw [hsame]
      rfl
    rw [hlog]
    refine ⟨h.shut hshut, ?_⟩
    rw [hq.bytes, hq.empty.mp hempty, List.append_nil]

theorem pipeclose_inv (writable : Bool) (h : Inv s) : Inv (pipeclose writable s) := by
  obtain ⟨q, hq⟩ := h.queued
  unfold pipeclose
  split_ifs
  · exact ⟨⟨q, hq.congr rfl rfl rfl (stored_cons _ _ rfl) (delivered_cons _ _ rfl)⟩, fun _ => List.mem_cons_self ..,
      h.eof.cons _ nofun⟩
  · exact ⟨⟨q, hq.congr rfl rfl rfl (stored_cons _ _ rfl) (delivered_cons _ _ rfl)⟩,
      fun hw => List.mem_cons_of_mem _ (h.shut hw), h.eof.cons _ nofun⟩

theorem init_inv (h : Init s) : Inv s := by
  refine ⟨⟨[], ?_, ?_⟩, fun hw => ?_, ?_⟩
  · rw [h.log]
    rfl
  · rw [h.log, h.nread, h.nwrite]
    exact Fifo.init _
  · rw [h.writeopen] at hw
    simp at hw
  · rw [h.log]
    trivial

theorem step_cases {a : Act nproc} (hs : step s a = some s') :
    (∃ p n rest, (a = .write p rest ∧ n = rest.length ∨ a = .resume p ∧ s.call p = some (.write n rest)) ∧
      s' = pipewrite p n rest s) ∨ (∃ p n, s' = piperead p n s) ∨ (∃ writable, s' = pipeclose writable s) ∨
      ∃ p, s' = { s with killed := update s.killed p true, asleep := update s.asleep p none } := by
  unfold step at hs
  rcases a with ⟨p, addr⟩ | ⟨p, n⟩ | p | w | p <;> dsimp only at hs
  · split_ifs at hs
    exact .inl ⟨p, _, addr, .inl ⟨rfl, rfl⟩, (Option.some.inj hs).symm⟩
  · split_ifs at hs
    exact .inr (.inl ⟨p, n, (Option.some.inj hs).symm⟩)
  · split_ifs at hs
    split at hs
    · rename_i n rest hcall
      exact .inl ⟨p, n, rest, .inr ⟨rfl, hcall⟩, (Option.some.inj hs).symm⟩
    · exact .inr (.inl ⟨p, _, (Option.some.inj hs).symm⟩)
    · simp at hs
  · split_ifs at hs
    all_goals exact .inr (.inr (.inl ⟨_, (Option.some.inj hs).symm⟩))
  · exact .inr (.inr (.inr ⟨p, (Option.some.inj hs).symm⟩))

theorem step_inv {a : Act nproc} (h : Inv s) (hs : step s a = some s') : Inv s' := by
  obtain ⟨p, n, rest, -, rfl⟩ | ⟨p, n, rfl⟩ | ⟨w, rfl⟩ | ⟨p, rfl⟩ := step_cases hs
  · exact pipewrite_inv n rest h
  · exact piperead_inv n h
  · exact pipeclose_inv w h
  · exact h.congr rfl rfl

theorem inv_of_reach (s : State nproc) (h : (pipes nproc).Reach s) : Inv s :=
  (pipes nproc).reach_inv Inv (fun _ => init_inv) (fun _ _ _ => step_inv) s h

/-- **A pipe is a queue.** Readers get the stored bytes in order, the counters never differ by more than the size of
the buffer, and end of file comes after the last byte. -/
theorem pipe_fifo (s : State nproc) (h : (pipes nproc).Reach s) :
    delivered s.log <+: stored s.log ∧ (s.pipe.nwrite + 2 ^ 32 - s.pipe.nread) % 2 ^ 32 ≤ PIPESIZE ∧
      ∀ newer p n past, s.log = newer ++ .got p n 0 :: past → 0 < n → .closed true ∈ past ∧
      delivered past = stored past := by
  have hi := inv_of_reach s h
  obtain ⟨q, hq⟩ := hi.queued
  refine ⟨⟨q, hq.bytes.symm⟩, ?_, fun newer p n past hlog hn => ?_⟩
  · rw [hq.fifo.used PIPESIZE_lt]
    exact hq.fifo.fits
  · have := hi.eof
    rw [hlog] at this
    exact (this.past newer).1 p n rfl hn

def boot : State 2 := ⟨⟨fun _ => 0, 0, 0, true, true⟩, fun _ => none, fun _ => none, fun _ => false, []⟩

theorem boot_init : Init boot := ⟨rfl, rfl, rfl, rfl, fun _ => rfl, fun _ => rfl, rfl⟩

def shortTransfer : List (Act 2) :=
  [.read 0 3, .write 1 [1, 2], .resume 0, .close true, .read 0 3]

theorem pipe_fifo_shortTransfer : ∃ s, (pipes 2).Reach s ∧ delivered s.log = [1, 2] ∧ delivered s.log <+: stored s.log ∧
    ∃ past, s.log = .got 0 3 0 :: past ∧ delivered past = stored past := by
  have hrun : ((pipes 2).run boot shortTransfer).map (·.log) = some [.got 0 3 0, .closed true, .got 0 3 2,
    .delivered 0 2,
      .delivered 0 1, .wrote 1 2, .stored 1 2, .stored 1 1] := by decide +kernel
  obtain ⟨s, hreach, hlog⟩ := (pipes 2).reach_of_map boot_init hrun
  have hall := pipe_fifo s hreach
  exact ⟨s, hreach, by rw [hlog]; rfl, hall.1, _, hlog, (hall.2.2 [] 0 3 _ hlog (by decide)).2⟩

/-- A process that sleeps on `&p->nread` finds the pipe empty and open, one on `&p->nwrite` finds it full and open. -/
structure Asleep (s : State nproc) : Prop where
  nread : ∀ q, s.asleep q = some .nread → s.pipe.empty = true ∧ s.pipe.writeopen = true
  nwrite : ∀ q, s.asleep q = some .nwrite → s.pipe.full = true ∧ s.pipe.readopen = true

/-- No writer that must give up has more bytes to write than fit in the pipe while a reader sleeps. -/
def Careful (s : State nproc) (p : Fin nproc) (rest : List UInt8) : Prop :=
  s.killed p = true ∨ s.pipe.readopen = false → PIPESIZE < rest.length → ∀ q, s.asleep q ≠ some .nread

def WritersCareful (s : State nproc) : Act nproc → Prop
  | .write p addr => Careful s p addr
  | .resume p => ∀ n rest, s.call p = some (.write n rest) → Careful s p rest
  | _ => True

theorem wakeup_ne (s : State nproc) (c : Chan) (q : Fin nproc) : (s.wakeup c).asleep q ≠ some c := by
  unfold State.wakeup
  dsimp only
  split_ifs with h
  · simp
  · exact h

theorem wakeup_some (s : State nproc) (c c' : Chan) (q : Fin nproc) (h : (s.wakeup c).asleep q = some c') :
    s.asleep q = some c' := by
  unfold State.wakeup at h
  dsimp only at h
  split_ifs at h
  exact h

theorem sleep_some (s : State nproc) (p : Fin nproc) (c : Chan) (call : Call) (c' : Chan) (q : Fin nproc)
    (h : (s.sleep p c call).asleep q = some c') : c = c' ∨ s.asleep q = some c' := by
  unfold State.sleep at h
  dsimp only at h
  rw [update_apply] at h
  split_ifs at h
  · exact .inl (Option.some.inj h)
  · exact .inr h

theorem pipewrite_asleep (n : Nat) (rest : List UInt8) (hq : Queued s q)
    (hwrite : ∀ q, s.asleep q = some .nwrite → s.pipe.full = true ∧ s.pipe.readopen = true)
    (hread : (∀ q, s.asleep q ≠ some .nread) ∨ (s.killed p = false ∧ s.pipe.readopen = true) ∨
      q.length + rest.length ≤ PIPESIZE) :
    Asleep (pipewrite p n rest s) := by
  induction rest generalizing s q with
  | nil =>
    unfold pipewrite
    exact ⟨fun q' hq' => absurd hq' (wakeup_ne s .nread q'), fun q' hq' => hwrite q' (wakeup_some _ _ _ q' hq')⟩
  | cons b rest ih =>
    unfold pipewrite
    split_ifs with hfull hbad
    · -- The writer gives up, so there is no reader that it should have woken.
      have hnone : ∀ q, s.asleep q ≠ some .nread := by
        rcases hread with hread | ⟨hk, hr⟩ | hfit
        · exact hread
        · simp [hk, hr] at hbad
        · have := hq.full.mp hfull
          rw [List.length_cons] at hfit
          omega
      exact ⟨fun q' hq' => absurd hq' (hnone q'), hwrite⟩
    · have hopen : s.pipe.readopen = true := by
        rw [not_or, Bool.not_eq_false] at hbad
        exact hbad.1
      constructor
      · intro q' hq'
        exact ((sleep_some _ _ _ _ _ q' hq').resolve_left (by simp) |> wakeup_ne s .nread q').elim
      · exact fun _ _ => ⟨hfull, hopen⟩
    · refine ih (hq.put hfull p b) (fun q' hq' => absurd (hwrite q' hq').1 hfull) ?_
      rcases hread with hread | hgo | hfit
      · exact .inl hread
      · exact .inr (.inl hgo)
      · refine .inr (.inr ?_)
        rw [List.length_append, List.length_singleton]
        rw [List.length_cons] at hfit
        omega

theorem readLoop_asleep (k i : Nat) (s : State nproc) :
    (readLoop p k i s).2.asleep = s.asleep ∧ (readLoop p k i s).2.pipe.readopen = s.pipe.readopen := by
  induction k generalizing i s with
  | zero => exact ⟨rfl, rfl⟩
  | succ k ih =>
    unfold readLoop
    split_ifs
    · exact ⟨rfl, rfl⟩
    · exact ih (i + 1) (s.get p)

theorem piperead_asleep (n : Nat) (h : Asleep s) : Asleep (piperead p n s) := by
  unfold piperead
  split_ifs with hwait hkilled
  · exact ⟨h.nread, h.nwrite⟩
  · constructor
    · exact fun _ _ => hwait
    · exact fun q hq => h.nwrite q ((sleep_some _ _ _ _ _ q hq).resolve_left (by simp))
  · constructor
    · intro q hq
      have hq := wakeup_some _ _ _ q hq
      rw [(readLoop_asleep n 0 s).1] at hq
      exact absurd (h.nread q hq) hwait
    · exact fun q hq => absurd hq (wakeup_ne _ .nwrite q)

theorem pipeclose_asleep (writable : Bool) (h : Asleep s) : Asleep (pipeclose writable s) := by
  unfold pipeclose
  split_ifs
  · exact ⟨fun q hq => absurd hq (wakeup_ne _ .nread q), fun q hq => h.nwrite q (wakeup_some _ _ _ q hq)⟩
  · exact ⟨fun q hq => h.nread q (wakeup_some _ _ _ q hq), fun q hq => absurd hq (wakeup_ne _ .nwrite q)⟩

theorem kill_asleep (p : Fin nproc) (h : Asleep s) :
    Asleep { s with killed := update s.killed p true, asleep := update s.asleep p none } := by
  have hstill : ∀ q c, update s.asleep p none q = some c → s.asleep q = some c := by
    intro q c hq
    rw [update_apply] at hq
    split_ifs at hq
    exact hq
  exact ⟨fun q hq => h.nread q (hstill q _ hq), fun q hq => h.nwrite q (hstill q _ hq)⟩

theorem step_asleep {a : Act nproc} (hi : Inv s) (h : Asleep s) (hc : WritersCareful s a) (hs : step s a = some s') :
    Asleep s' := by
  obtain ⟨p, n, rest, ha, rfl⟩ | ⟨p, n, rfl⟩ | ⟨w, rfl⟩ | ⟨p, rfl⟩ := step_cases hs
  · have hcareful : Careful s p rest := by
      rcases ha with ⟨rfl, -⟩ | ⟨rfl, hcall⟩
      · exact hc
      · exact hc n rest hcall
    obtain ⟨q, hq⟩ := hi.queued
    refine pipewrite_asleep n rest hq h.nwrite ?_
    by_contra hcon
    push Not at hcon
    obtain ⟨⟨r, hr⟩, hgo, hlong⟩ := hcon
    -- A sleeping reader finds the pipe empty.
    have hempty := hq.empty.mp (h.nread r hr).1
    rw [hempty, List.length_nil, Nat.zero_add] at hlong
    refine hcareful ?_ hlong r hr
    rcases hk : s.killed p with _ | _
    · exact .inr (eq_false_of_ne_true (hgo hk))
    · exact .inl rfl
  · exact piperead_asleep n h
  · exact pipeclose_asleep w h
  · exact kill_asleep p h

/-- **No sleeper is stranded** while writers that give up are careful. -/
theorem asleep_for_a_reason (s : State nproc) (h : (pipes nproc).ReachIf WritersCareful s) :
    (∀ p, s.asleep p = some .nread → s.pipe.nread = s.pipe.nwrite ∧ s.pipe.writeopen = true) ∧
      ∀ p, s.asleep p = some .nwrite → s.pipe.nwrite = (s.pipe.nread + PIPESIZE) % 2 ^ 32 ∧ s.pipe.readopen = true := by
  have hall : Inv s ∧ Asleep s := by
    refine (pipes nproc).reachIf_inv WritersCareful (fun s => Inv s ∧ Asleep s) (fun s h0 => ⟨init_inv h0, ?_⟩) ?_ s h
    · exact ⟨fun q hq => by simp [h0.asleep q] at hq, fun q hq => by simp [h0.asleep q] at hq⟩
    · rintro s a s' ⟨hi, ha⟩ hc hs
      exact ⟨step_inv hi hs, step_asleep hi ha hc hs⟩
  exact ⟨fun p hp => ⟨of_decide_eq_true (hall.2.nread p hp).1, (hall.2.nread p hp).2⟩,
    fun p hp => ⟨of_decide_eq_true (hall.2.nwrite p hp).1, (hall.2.nwrite p hp).2⟩⟩

def killedWriter : List (Act 2) := [.read 0 1, .kill 1, .write 1 (List.replicate 513 0)]

theorem killed_writer_strands_reader :
    ∃ s, (pipes 2).Reach s ∧ s.asleep 0 = some .nread ∧ s.pipe.nread ≠ s.pipe.nwrite ∧
    s.call 1 = none := by
  have hrun : ((pipes 2).run boot killedWriter).map (fun s => (s.asleep 0, s.pipe.nread, s.pipe.nwrite, s.call 1)) =
      some (some .nread, 0, 512, none) := by decide +kernel
  obtain ⟨s, hreach, hv⟩ := (pipes 2).reach_of_map boot_init hrun
  simp only [Prod.mk.injEq] at hv
  refine ⟨s, hreach, hv.1, ?_, hv.2.2.2⟩
  rw [hv.2.1, hv.2.2.1]
  decide

def fullPipe : List (Act 2) := [.write 1 (List.replicate 513 0)]

theorem asleep_for_a_reason_fullPipe : ∃ s, (pipes 2).ReachIf WritersCareful s ∧ s.asleep 1 = some .nwrite ∧
    s.pipe.nwrite = (s.pipe.nread + PIPESIZE) % 2 ^ 32 := by
  have hrun : ((pipes 2).run boot fullPipe).map (fun s => s.asleep 1) = some (some .nwrite) := by decide +kernel
  obtain ⟨s, hs, hv⟩ := Option.map_eq_some_iff.mp hrun
  obtain ⟨t, ht, hrest⟩ := Option.bind_eq_some_iff.mp hs
  obtain rfl := Option.some.inj hrest
  have hcareful : WritersCareful boot (.write 1 (List.replicate 513 0)) := fun _ _ _ => by simp [boot]
  have hreach : (pipes 2).ReachIf WritersCareful t := .step _ _ _ (.init _ boot_init) hcareful ht
  exact ⟨t, hreach, hv, ((asleep_for_a_reason t hreach).2 1 hv).1⟩

end Xv6.Pipes
