import Mathlib
import Xv6.Lib.Fifo
import Xv6.Console.Code

/-!
# The line discipline of the console

A line is edited before it is committed, and readers take the committed characters in order. The
characters typed and taken so far say what is committed, and the ring of `console.c` agrees.
-/

open Lib Function

namespace Xv6.Console

variable {nproc : Nat} {s s' : State nproc} {p q : Fin nproc} {log past : List (Event nproc)} {c b : UInt8}

/-- All characters ever committed, how many of them readers have taken, and the line being edited. -/
structure Line where
  committed : List UInt8
  taken : Nat
  line : List UInt8
  deriving DecidableEq, Repr

namespace Line

def waiting (l : Line) : List UInt8 := l.committed.drop l.taken

/-- The line is committed at its end, at `^D`, and when there is no room for more. -/
def add (l : Line) (c : UInt8) : Line :=
  let line := l.line ++ [c]
  if c = newline ∨ c = C 'D' ∨ (l.waiting ++ line).length = INPUT_BUF then
    { l with committed := l.committed ++ line, line := [] }
  else { l with line := line }

def type (l : Line) (c : UInt8) : Line :=
  if c = 0 ∨ c = C 'P' then l
  else if c = C 'U' then { l with line := [] }
  else if c = C 'H' ∨ c = 0x7f then { l with line := l.line.dropLast }
  else if (l.waiting ++ l.line).length < INPUT_BUF then l.add (if c = '\r'.toUInt8 then newline else c)
  else l

def take (l : Line) : Line := { l with taken := l.taken + 1 }

/-- After the events of a log. A read that asked for characters and returned 0 has taken a `^D`. -/
def after : List (Event nproc) → Line
  | [] => ⟨[], 0, []⟩
  | .typed c :: past => (after past).type c
  | .delivered _ _ :: past => (after past).take
  | .returned _ n v :: past => if 0 < n ∧ v = 0 then (after past).take else after past

end Line

/-- The characters that left the ring, the first one first. -/
def taken : List (Event nproc) → List UInt8
  | [] => []
  | .typed _ :: past => taken past
  | .delivered _ b :: past => taken past ++ [b]
  | .returned _ n v :: past => if 0 < n ∧ v = 0 then taken past ++ [C 'D'] else taken past

def readBytes (p : Fin nproc) : List (Event nproc) → List UInt8
  | [] => []
  | .typed _ :: past => readBytes p past
  | .delivered q b :: past => if q = p then readBytes p past ++ [b] else readBytes p past
  | .returned q _ _ :: past => if q = p then [] else readBytes p past

structure Holds (i : Input) (l : Line) : Prop where
  fifo : Fifo (2 ^ 32) INPUT_BUF i.buf i.r i.e l.taken (l.waiting ++ l.line)
  w : i.w = l.committed.length % 2 ^ 32
  taken : l.taken ≤ l.committed.length
  plain : newline ∉ l.line

theorem INPUT_BUF_lt : INPUT_BUF < 2 ^ 32 := by unfold INPUT_BUF; omega

theorem INPUT_BUF_dvd : INPUT_BUF ∣ 2 ^ 32 := ⟨2 ^ 25, rfl⟩

theorem Line.taken_add {l : Line} (h : l.taken ≤ l.committed.length) :
    l.taken + l.waiting.length = l.committed.length := by
  rw [waiting, List.length_drop]
  omega

theorem Line.waiting_take {l : Line} (h : l.waiting = b :: ws) : l.take.waiting = ws := by
  unfold waiting take at *
  rw [← List.tail_drop, h]
  rfl

namespace Holds

variable {i : Input} {l : Line} {line ws committed : List UInt8} {taken : Nat}

variable (h : Holds i l)

section

include h

theorem ready : Fifo (2 ^ 32) INPUT_BUF i.buf i.r i.w l.taken l.waiting := by
  have := h.fifo.first
  rwa [l.taken_add h.taken, ← h.w] at this

theorem editing : Fifo (2 ^ 32) INPUT_BUF i.buf i.w i.e l.committed.length l.line := by
  have := h.fifo.rest
  rwa [l.taken_add h.taken, ← h.w] at this

theorem empty : i.r = i.w ↔ l.waiting = [] := h.ready.empty_iff INPUT_BUF_lt

theorem idle : i.e = i.w ↔ l.line = [] := by
  rw [eq_comm]
  exact h.editing.empty_iff INPUT_BUF_lt

end

theorem erase (h : Holds i ⟨committed, taken, line ++ [c]⟩) : Holds i.erase ⟨committed, taken, line⟩ := by
  obtain ⟨hfifo, hw, htaken, hplain⟩ := h
  unfold Input.erase
  constructor
  · unfold Line.waiting at *
    rw [← List.append_assoc] at hfifo
    exact hfifo.unput INPUT_BUF_lt
  · exact hw
  · exact htaken
  · exact fun hmem => hplain (List.mem_append_left _ hmem)

theorem last (h : Holds i ⟨committed, taken, line ++ [c]⟩) : i.last = c :=
  h.editing.last INPUT_BUF_dvd INPUT_BUF_lt

section

include h

theorem killLoop : Holds (i.killLoop l.line.length) { l with line := [] } := by
  obtain ⟨committed, taken, line⟩ := l
  induction line using List.reverseRecOn generalizing i with
  | nil => exact h
  | append_singleton line c ih =>
    have hsome : i.e ≠ i.w := fun he => absurd (h.idle.mp he) (by simp)
    have hc : i.last ≠ newline := by
      rw [h.last]
      rintro rfl
      exact h.plain (by simp)
    rw [List.length_append, List.length_singleton, Input.killLoop, if_pos ⟨hsome, hc⟩]
    exact ih h.erase

theorem kill : Holds i.kill { l with line := [] } := by
  unfold Input.kill
  rw [h.editing.used INPUT_BUF_lt]
  exact h.killLoop

theorem backspace : Holds (if i.e ≠ i.w then i.erase else i) { l with line := l.line.dropLast } := by
  obtain ⟨committed, taken, line⟩ := l
  induction line using List.reverseRecOn with
  | nil =>
    rw [if_neg (not_not.mpr (h.idle.mpr rfl))]
    exact h
  | append_singleton line c =>
    have hsome : i.e ≠ i.w := fun he => absurd (h.idle.mp he) (by simp)
    simp only [if_pos hsome, List.dropLast_concat]
    exact h.erase

theorem store (hroom : (l.waiting ++ l.line).length < INPUT_BUF) (c : UInt8) :
    Holds (if c = newline ∨ c = C 'D' ∨ (i.store c).e = ((i.store c).r + INPUT_BUF) % 2 ^ 32 then
      { i.store c with w := (i.store c).e } else i.store c) (l.add c) := by
  have hput := h.fifo.put INPUT_BUF_dvd hroom c
  rw [List.append_assoc] at hput
  have hfull : (i.store c).e = ((i.store c).r + INPUT_BUF) % 2 ^ 32 ↔
    (l.waiting ++ (l.line ++ [c])).length = INPUT_BUF :=
    hput.full_iff INPUT_BUF_lt
  unfold Line.add
  simp only [hfull]
  split_ifs with hcommit
  · have hwaiting : Line.waiting ⟨l.committed ++ (l.line ++ [c]), l.taken, []⟩ = l.waiting ++ (l.line ++ [c]) := by
      unfold Line.waiting
      rw [List.drop_append_of_le_length h.taken]
    constructor
    · rw [hwaiting, List.append_nil]
      exact hput
    · rw [List.length_append, ← l.taken_add h.taken, Nat.add_assoc, ← List.length_append]
      exact hput.nwrite
    · rw [List.length_append]
      exact h.taken.trans (Nat.le_add_right ..)
    · exact List.not_mem_nil
  · refine ⟨hput, h.w, h.taken, ?_⟩
    rw [List.mem_append, List.mem_singleton]
    rintro (hmem | rfl)
    · exact h.plain hmem
    · exact hcommit (.inl rfl)

theorem next (hw : l.waiting = b :: ws) : i.next = b := by
  have := h.ready
  rw [hw] at this
  exact this.next INPUT_BUF_dvd

theorem skip (hw : l.waiting = b :: ws) : Holds i.skip l.take := by
  have hfifo := h.fifo
  rw [hw, List.cons_append] at hfifo
  have hlen := l.taken_add h.taken
  rw [hw, List.length_cons] at hlen
  refine ⟨?_, h.w, ?_, h.plain⟩
  · rw [Line.waiting_take hw]
    exact hfifo.skip
  · change l.taken + 1 ≤ l.committed.length
    omega

theorem unskip : i.skip.unskip = i := by
  have hr : i.r < 2 ^ 32 := h.fifo.nread ▸ Nat.mod_lt _ (by decide)
  have hback : ((i.r + 1) % 2 ^ 32 + 2 ^ 32 - 1) % 2 ^ 32 = i.r := by omega
  unfold Input.skip Input.unskip
  rw [hback]

end

end Holds

def Plain (dst : List UInt8) : Prop := newline ∉ dst ∧ C 'D' ∉ dst

/-- What a process has got that waits in a call, or is in none. -/
def Waits (call : Option Call) (dst : List UInt8) : Prop :=
  match call with
  | none => dst = []
  | some c => dst = c.dst ∧ dst.length + c.n = c.target ∧ Plain dst

structure Returned (killed : Bool) (n : Nat) (v : Int) (dst : List UInt8) : Prop where
  newline : newline ∉ dst.dropLast
  eof : C 'D' ∉ dst
  count : dst.length ≤ n
  value : v = dst.length ∨ v = -1 ∧ killed = true

/-- `reading` is what holds of the characters that each process got in the call it is in. -/
structure Inv (s : State nproc) (reading : Fin nproc → List UInt8 → Prop) : Prop where
  holds : Holds s.input (Line.after s.log)
  stream : taken s.log = (Line.after s.log).committed.take (Line.after s.log).taken
  sleepers : ∀ q, s.asleep q = true → s.input.r = s.input.w
  reading : ∀ q, reading q (readBytes q s.log)
  returned : ∀ q n v past, .returned q n v :: past <:+ s.log → Returned (s.killed q) n v (readBytes q past)
  delivered : ∀ q b, .delivered q b ∈ s.log → b ≠ C 'D'

def Idle (s : State nproc) : Prop := Inv s fun q => Waits (s.call q)

def Running (s : State nproc) (p : Fin nproc) (dst : List UInt8) : Prop :=
  Inv s (update (fun q => Waits (s.call q)) p (· = dst))

variable {reading : Fin nproc → List UInt8 → Prop} {n target : Nat} {v : Int} {dst ws : List UInt8}

theorem Inv.next (h : Inv s reading) (hsome : s.input.r ≠ s.input.w) :
    ∃ ws, (Line.after s.log).waiting = s.input.next :: ws := by
  rcases hw : (Line.after s.log).waiting with _ | ⟨b, ws⟩
  · exact absurd (h.holds.empty.mpr hw) hsome
  · exact ⟨ws, by rw [h.holds.next hw]⟩

theorem Inv.taken_next (h : Inv s reading) (hw : (Line.after s.log).waiting = b :: ws) :
    taken s.log ++ [b] = (Line.after s.log).take.committed.take (Line.after s.log).take.taken := by
  have hget : (Line.after s.log).committed[(Line.after s.log).taken]? = some b := by
    have := congrArg List.head? hw
    rwa [Line.waiting, List.head?_drop] at this
  unfold Line.take
  rw [List.take_add_one, hget, h.stream]
  rfl

theorem Line.taken_type (l : Line) (c : UInt8) : (l.type c).taken = l.taken := by
  unfold type add
  dsimp only
  split_ifs <;> rfl

theorem Line.take_type {l : Line} (h : l.taken ≤ l.committed.length) (c : UInt8) :
    (l.type c).committed.take l.taken = l.committed.take l.taken := by
  unfold type add
  dsimp only
  split_ifs <;> first | rfl | exact List.take_append_of_le_length h

theorem Inv.typed {i : Input} {asleep : Fin nproc → Bool} (h : Inv s reading)
    (hholds : Holds i ((Line.after s.log).type c))
    (hsleep : ∀ q, asleep q = true → i.r = i.w) :
    Inv { s with input := i, asleep := asleep, log := .typed c :: s.log } reading := by
  refine ⟨hholds, ?_, hsleep, h.reading, fun q n v past hpast => ?_, fun q b hmem => ?_⟩
  · change taken s.log = ((Line.after s.log).type c).committed.take ((Line.after s.log).type c).taken
    rw [Line.taken_type, Line.take_type h.holds.taken, h.stream]
  · rcases List.suffix_cons_iff.mp hpast with heq | hpast
    · cases heq
    · exact h.returned q n v past hpast
  · rcases List.mem_cons.mp hmem with heq | hmem
    · cases heq
    · exact h.delivered q b hmem

theorem Input.erase_r (i : Input) : i.erase.r = i.r := by
  cases i
  dsimp only [erase]

theorem Input.erase_w (i : Input) : i.erase.w = i.w := by
  cases i
  dsimp only [erase]

theorem kill_eq (i : Input) : ∃ e, i.kill = { i with e := e } := by
  unfold Input.kill
  generalize (i.e + 2 ^ 32 - i.w) % 2 ^ 32 = k
  induction k generalizing i with
  | zero => exact ⟨i.e, rfl⟩
  | succ k ih =>
    rw [Input.killLoop]
    split_ifs
    · obtain ⟨e, he⟩ := ih i.erase
      refine ⟨e, ?_⟩
      rw [he]
      unfold Input.erase
      rfl
    · exact ⟨i.e, rfl⟩

theorem type_inv (h : Inv s reading) (hU : c ≠ C 'U') (hP : c ≠ C 'P') (hH : ¬ (c = C 'H' ∨ c = 0x7f)) :
    Inv (({ s with log := .typed c :: s.log } : State nproc).type c) reading := by
  have hfifo := h.holds.fifo
  have htype : (Line.after s.log).type c = if c = 0 then Line.after s.log else
      if ((Line.after s.log).waiting ++ (Line.after s.log).line).length < INPUT_BUF then
        (Line.after s.log).add (if c = '\r'.toUInt8 then newline else c) else Line.after s.log := by
    unfold Line.type
    simp only [hP, or_false, if_neg hU, if_neg hH]
  unfold State.type
  rw [hfifo.used INPUT_BUF_lt]
  dsimp only
  generalize (if c = '\r'.toUInt8 then newline else c) = b at htype ⊢
  by_cases hroom : c ≠ 0 ∧ ((Line.after s.log).waiting ++ (Line.after s.log).line).length < INPUT_BUF
  · rw [if_neg hroom.1, if_pos hroom.2] at htype
    rw [if_pos hroom]
    have hstore := h.holds.store hroom.2 b
    rw [← htype] at hstore
    split_ifs at hstore ⊢
    · exact h.typed hstore nofun
    · exact h.typed hstore h.sleepers
  · have hsame : (Line.after s.log).type c = Line.after s.log := by
      rw [htype]
      split_ifs with h0 hlt
      · rfl
      · exact absurd ⟨h0, hlt⟩ hroom
      · rfl
    rw [if_neg hroom]
    exact h.typed (by rw [hsame]; exact h.holds) h.sleepers

theorem key_inv (h : Inv s reading) (c : UInt8) : Inv (s.key c) reading := by
  unfold State.key
  dsimp only
  split_ifs with hP hU hH hsome
  · refine h.typed ?_ h.sleepers
    rw [Line.type, if_pos (.inr hP)]
    exact h.holds
  · have htype : (Line.after s.log).type c = { Line.after s.log with line := [] } := by
      subst hU
      rfl
    obtain ⟨e, he⟩ := kill_eq s.input
    refine h.typed (htype ▸ h.holds.kill) ?_
    rw [he]
    exact h.sleepers
  · have htype : (Line.after s.log).type c = { Line.after s.log with line := (Line.after s.log).line.dropLast } := by
      rcases hH with rfl | rfl <;> rfl
    have hback := h.holds.backspace
    rw [if_pos hsome] at hback
    refine h.typed (htype ▸ hback) ?_
    rw [Input.erase_r, Input.erase_w]
    exact h.sleepers
  · have htype : (Line.after s.log).type c = { Line.after s.log with line := (Line.after s.log).line.dropLast } := by
      rcases hH with rfl | rfl <;> rfl
    have hback := h.holds.backspace
    rw [if_neg hsome] at hback
    exact h.typed (htype ▸ hback) h.sleepers
  · exact type_inv h hU hP hH

theorem key_eq (s : State nproc) (c : UInt8) :
    ∃ i asleep, s.key c = { s with input := i, asleep := asleep, log := .typed c :: s.log } := by
  unfold State.key State.type
  dsimp only
  split_ifs
  all_goals exact ⟨_, _, rfl⟩

theorem consoleintr_call (cs : List UInt8) (s : State nproc) : (consoleintr cs s).call = s.call := by
  unfold consoleintr
  induction cs generalizing s with
  | nil => rfl
  | cons c cs ih =>
    obtain ⟨i, asleep, hkey⟩ := key_eq s c
    rw [List.foldl_cons, ih, hkey]

theorem consoleintr_inv (cs : List UInt8) (h : Inv s reading) : Inv (consoleintr cs s) reading := by
  unfold consoleintr
  induction cs generalizing s with
  | nil => exact h
  | cons c cs ih => exact ih (key_inv h c)

theorem Running.own (h : Running s p dst) : readBytes p s.log = dst := by
  have := h.reading p
  rwa [update_self] at this

theorem Running.other (h : Running s p dst) (hq : q ≠ p) : Waits (s.call q) (readBytes q s.log) := by
  have := h.reading q
  rwa [update_of_ne hq] at this

theorem running_of {reads : Fin nproc → List UInt8} (hown : reads p = dst)
    (hother : ∀ q, q ≠ p → Waits (s.call q) (reads q)) (q : Fin nproc) :
    update (fun q => Waits (s.call q)) p (· = dst) q (reads q) := by
  by_cases hq : q = p
  · subst hq
    rwa [update_self]
  · rw [update_of_ne hq]
    exact hother q hq

theorem Running.deliver (h : Running s p dst) (hw : (Line.after s.log).waiting = b :: ws) (hb : b ≠ C 'D') :
    Running (s.deliver p b) p (dst ++ [b]) := by
  have hbusy : s.input.r ≠ s.input.w := fun he => absurd (h.holds.empty.mp he) (by simp [hw])
  refine ⟨h.holds.skip hw, h.taken_next hw, fun q hq => absurd (h.sleepers q hq) hbusy, ?_, ?_, ?_⟩
  · apply running_of
    · change (if p = p then readBytes p s.log ++ [b] else _) = _
      rw [if_pos rfl, h.own]
    · intro q hq
      change Waits (s.call q) (if p = q then _ else readBytes q s.log)
      rw [if_neg hq.symm]
      exact h.other hq
  · intro q n v past hpast
    rcases List.suffix_cons_iff.mp hpast with heq | hpast
    · cases heq
    · exact h.returned q n v past hpast
  · intro q c hmem
    rcases List.mem_cons.mp hmem with heq | hmem
    · cases heq
      exact hb
    · exact h.delivered q c hmem

theorem Running.leave {i : Input} (h : Running s p dst) (hret : Returned (s.killed p) n v dst)
    (hholds : Holds i (Line.after (.returned p n v :: s.log)))
    (hstream : taken (.returned p n v :: s.log) =
      (Line.after (.returned p n v :: s.log)).committed.take (Line.after (.returned p n v :: s.log)).taken)
    (hsleep : ∀ q, s.asleep q = true → i.r = i.w) : Idle (({ s with input := i } : State nproc).ret p n v) := by
  refine ⟨hholds, hstream, hsleep, ?_, ?_, ?_⟩
  · intro q
    change Waits (update s.call p none q) (if p = q then [] else readBytes q s.log)
    by_cases hq : q = p
    · subst hq
      rw [update_self, if_pos rfl]
      rfl
    · rw [update_of_ne hq, if_neg (Ne.symm hq)]
      exact h.other hq
  · intro q n v past hpast
    rcases List.suffix_cons_iff.mp hpast with heq | hpast
    · cases heq
      rw [h.own]
      exact hret
    · exact h.returned q n v past hpast
  · intro q c hmem
    rcases List.mem_cons.mp hmem with heq | hmem
    · cases heq
    · exact h.delivered q c hmem

theorem Running.ret (h : Running s p dst) (hret : Returned (s.killed p) n v dst) (hv : ¬ (0 < n ∧ v = 0)) :
    Idle (s.ret p n v) := by
  have hline : Line.after (.returned p n v :: s.log) = Line.after s.log := if_neg hv
  have htaken : taken (.returned p n v :: s.log) = taken s.log := if_neg hv
  refine h.leave hret ?_ ?_ h.sleepers
  · rw [hline]
    exact h.holds
  · rw [hline, htaken]
    exact h.stream

theorem Running.eof (h : Running s p []) (hw : (Line.after s.log).waiting = C 'D' :: ws) (hn : 0 < n) :
    Idle (({ s with input := s.input.skip } : State nproc).ret p n 0) := by
  have hbusy : s.input.r ≠ s.input.w := fun he => absurd (h.holds.empty.mp he) (by simp [hw])
  have hline : Line.after (.returned p n 0 :: s.log) = (Line.after s.log).take := if_pos ⟨hn, rfl⟩
  have htaken : taken (.returned p n 0 :: s.log) = taken s.log ++ [C 'D'] := if_pos ⟨hn, rfl⟩
  refine h.leave ⟨List.not_mem_nil, List.not_mem_nil, Nat.zero_le n, .inl rfl⟩ ?_ ?_ fun q hq =>
    absurd (h.sleepers q hq) hbusy
  · rw [hline]
    exact h.holds.skip hw
  · rw [hline, htaken]
    exact h.taken_next hw

theorem Running.sleep (h : Running s p dst) (hempty : s.input.r = s.input.w) (hlen : dst.length + n = target)
    (hdst : Plain dst) :
    Idle (s.sleep p ⟨target, n, dst⟩) := by
  refine ⟨h.holds, h.stream, fun _ _ => hempty, fun q => ?_, h.returned, h.delivered⟩
  change Waits (update s.call p (some ⟨target, n, dst⟩) q) (readBytes q s.log)
  by_cases hq : q = p
  · subst hq
    rw [update_self, h.own]
    exact ⟨rfl, hlen, hdst⟩
  · rw [update_of_ne hq]
    exact h.other hq

theorem Plain.returned (hdst : Plain dst) (killed : Bool) (hlen : dst.length ≤ n)
    (hv : v = dst.length ∨ v = -1 ∧ killed = true) :
    Returned killed n v dst :=
  ⟨fun hmem => hdst.1 ((List.dropLast_sublist dst).subset hmem), hdst.2, hlen, hv⟩

theorem consoleread_inv (n : Nat) (hlen : dst.length + n = target) (hdst : Plain dst) (h : Running s p dst) :
    Idle (consoleread p target n dst s) := by
  induction n generalizing s dst with
  | zero =>
    rw [consoleread]
    have heq : (target : Int) = dst.length := by omega
    exact h.ret (hdst.returned _ (by omega) (.inl heq)) (by omega)
  | succ n ih =>
    rw [consoleread]
    split
    rename_i hempty
    split_ifs with hkilled
    · exact h.ret (hdst.returned _ (by omega) (.inr ⟨rfl, hkilled⟩)) (by omega)
    · exact h.sleep hempty hlen hdst
    · rename_i hempty
      obtain ⟨ws, hw⟩ := h.next hempty
      have hvalue : (target : Int) - (n + 1 : Nat) = dst.length := by omega
      dsimp only
      split_ifs with heof hsome hnl
      · -- The `^D` is left for the next read.
        rw [h.holds.unskip, hvalue]
        exact h.ret (hdst.returned _ (by omega) (.inl rfl)) (by omega)
      · obtain rfl : dst = [] := List.length_eq_zero_iff.mp (by omega)
        rw [heof] at hw
        rw [hvalue]
        exact h.eof hw (by omega)
      · have hdeliver := h.deliver hw heof
        refine hdeliver.ret ?_ (by omega)
        refine ⟨?_, ?_, ?_, ?_⟩
        · rw [List.dropLast_concat]
          exact hdst.1
        · rw [List.mem_append, List.mem_singleton]
          rintro (hmem | heq)
          · exact hdst.2 hmem
          · exact heof heq.symm
        · rw [List.length_append, List.length_singleton]
          omega
        · rw [List.length_append, List.length_singleton]
          omega
      · refine ih ?_ ?_ (h.deliver hw heof)
        · rw [List.length_append, List.length_singleton]
          omega
        · constructor
          all_goals
            rw [List.mem_append, List.mem_singleton]
            rintro (hmem | heq)
          · exact hdst.1 hmem
          · exact hnl heq.symm
          · exact hdst.2 hmem
          · exact heof heq.symm

theorem init_idle (h : Init s) : Idle s := by
  have hline : Line.after s.log = ⟨[], 0, []⟩ := by rw [h.log]; rfl
  refine ⟨?_, ?_, ?_, ?_, ?_, ?_⟩
  · rw [hline]
    refine ⟨?_, h.w, Nat.zero_le _, List.not_mem_nil⟩
    rw [h.r, h.e]
    exact Fifo.init _
  · rw [hline, h.log]
    rfl
  · intro q hq
    rw [h.asleep] at hq
    cases hq
  · intro q
    rw [h.call, h.log]
    rfl
  · intro q n v past hpast
    rw [h.log] at hpast
    exact absurd (List.suffix_nil.mp hpast) (by simp)
  · intro q b hmem
    rw [h.log] at hmem
    cases hmem

theorem Idle.running (h : Idle s) (hp : readBytes p s.log = dst) : Running s p dst :=
  ⟨h.holds, h.stream, h.sleepers, running_of hp fun q _ => h.reading q, h.returned, h.delivered⟩

theorem read_idle (h : Idle s) (hcall : s.call p = none) (n : Nat) : Idle (consoleread p n n [] s) := by
  have hp := h.reading p
  rw [hcall] at hp
  exact consoleread_inv n (Nat.zero_add n) ⟨List.not_mem_nil, List.not_mem_nil⟩ (h.running hp)

theorem resume_idle {c : Call} (h : Idle s) (hcall : s.call p = some c) :
    Idle (consoleread p c.target c.n c.dst s) := by
  have hp := h.reading p
  rw [hcall] at hp
  obtain ⟨hdst, hlen, hplain⟩ := hp
  rw [hdst] at hlen hplain
  exact consoleread_inv c.n hlen hplain (h.running hdst)

theorem kill_idle (h : Idle s) (p : Fin nproc) :
    Idle { s with killed := update s.killed p true, asleep := update s.asleep p false } := by
  refine ⟨h.holds, h.stream, fun q hq => ?_, h.reading, fun q n v past hpast => ?_, h.delivered⟩
  · apply h.sleepers q
    dsimp only at hq
    rw [update_apply] at hq
    split_ifs at hq
    exact hq
  · have hret := h.returned q n v past hpast
    refine ⟨hret.newline, hret.eof, hret.count, hret.value.imp_right fun hv => ⟨hv.1, ?_⟩⟩
    dsimp only
    rw [update_apply]
    split_ifs
    · rfl
    · exact hv.2

theorem step_idle {a : Act nproc} (h : Idle s) (hs : step s a = some s') : Idle s' := by
  cases a with
  | intr cs =>
    cases hs
    have hcall : (consoleintr cs s).call = s.call := consoleintr_call cs s
    unfold Idle
    rw [hcall]
    exact consoleintr_inv cs h
  | read p n =>
    unfold step at hs
    dsimp only at hs
    split_ifs at hs with hcall
    cases hs
    exact read_idle h hcall n
  | resume p =>
    unfold step at hs
    dsimp only at hs
    split at hs
    · rename_i c hcall
      split_ifs at hs
      cases hs
      exact resume_idle h hcall
    · cases hs
  | kill p =>
    cases hs
    exact kill_idle h p

theorem reach_idle (h : (console nproc).Reach s) : Idle s :=
  (console nproc).reach_inv Idle (fun _ => init_idle) (fun _ _ _ => step_idle) s h

/-- How many reads asked for characters and returned 0. -/
def zeros (log : List (Event nproc)) : Nat :=
  log.countP fun e => match e with
    | .returned _ n v => 0 < n ∧ v = 0
    | _ => false

def boot : State 2 := ⟨⟨fun _ => 0, 0, 0, 0⟩, fun _ => none, fun _ => false, fun _ => false, []⟩

theorem boot_init : Init boot := ⟨rfl, rfl, rfl, fun _ => rfl, fun _ => rfl, rfl⟩

end Xv6.Console
