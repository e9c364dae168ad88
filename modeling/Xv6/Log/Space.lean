import Xv6.Log.Group

/-!
# Log space

`begin_op` reserves `MAXOPBLOCKS` of `LOGSIZE` blocks for each operation. `log_write` gives up one
block earlier, because the header takes one of the `nlog` blocks of the log area, and it checks
before it looks for the block in `lh`.
-/

open Lib Function

namespace Xv6.Group

variable {nproc : Nat}

variable (m M : Nat) (s : State nproc) (p : Fin nproc) (a : Act nproc)

theorem n_eq_logged (h : Inv s) : s.log.lh.n = s.logged.toFinset.card := by
  rw [← s.log.lh.blocks_length, ← List.toFinset_card_of_nodup h.nodup]
  congr 1
  ext b
  simp [h.exact]

theorem move_size (s s' : State nproc) (a : Act nproc) (hm : Move s a s') : s'.log.size = s.log.size := by
  cases hm with
  | begin_op | wake | absorb | commit | end_commit => rfl
  | enter p hp => unfold enter; split_ifs <;> rfl
  | log_write p b hp => unfold log_write; split_ifs <;> rfl
  | end_op p hp => unfold end_op; dsimp only; split_ifs <;> rfl

/-- The number of log blocks that `mkfs` stores in the superblock. -/
def nlog : Nat := LOGSIZE

theorem full_iff (h : Inv s) (hsize : s.log.size = nlog) :
    s.log.full = true ↔ nlog - 1 ≤ s.logged.toFinset.card := by
  have h30 : nlog = 30 := rfl
  have hlog : LOGSIZE = 30 := rfl
  rw [← n_eq_logged s h]
  simp only [Log.full, Bool.or_eq_true, decide_eq_true_eq]
  omega

theorem move_too_big (s s' : State nproc) (a : Act nproc) (hs : s.stopped = none) (hm : Move s a s') :
    s'.stopped = some "too big a transaction" ↔ ∃ p b, a = .log_write p b ∧ s.log.full = true := by
  cases hm with
  | begin_op | wake | absorb | commit | end_commit =>
    simp [setPc, absorb, commit, end_commit, wakeup, hs]
  | enter p hp => unfold enter; split_ifs <;> simp [setPc, hs]
  | log_write p b hp => unfold log_write; split_ifs <;> simp_all [setPc, panic]
  | end_op p hp => unfold end_op; dsimp only; split_ifs <;> simp [setPc, panic, wakeup, hs]

theorem run_stopped (size : Nat) (s s' : State nproc) (as : List (Act nproc)) (hs : s.stopped ≠ none)
    (hr : (system nproc size).run s as = some s') : as = [] ∧ s' = s := by
  cases as with
  | nil => cases hr; exact ⟨rfl, rfl⟩
  | cons a as => simp [System.run, system, step, hs] at hr

/-- Some call of `log_write` in the run finds `nlog - 1` distinct blocks logged since the last commit. -/
def CallsWhenFull (s : State nproc) (as : List (Act nproc)) : Prop :=
  ∃ as₁ p b as₂ t, as = as₁ ++ .log_write p b :: as₂ ∧ (system nproc nlog).run s as₁ = some t ∧
    nlog - 1 ≤ t.logged.toFinset.card

theorem callsWhenFull_cons (s t : State nproc) (a : Act nproc) (as : List (Act nproc))
    (ht : step s a = some t) : CallsWhenFull s (a :: as) ↔
      (∃ p b, a = .log_write p b ∧ nlog - 1 ≤ s.logged.toFinset.card) ∨ CallsWhenFull t as := by
  constructor
  · rintro ⟨as₁, p, b, as₂, u, he, hu, hfull⟩
    cases as₁ with
    | nil =>
      cases he; cases hu
      exact Or.inl ⟨p, b, rfl, hfull⟩
    | cons a' as₁ =>
      cases he
      rw [System.run, show (system nproc nlog).step s a = some t from ht] at hu
      exact Or.inr ⟨as₁, p, b, as₂, u, rfl, hu, hfull⟩
  · rintro (⟨p, b, rfl, hfull⟩ | ⟨as₁, p, b, as₂, u, rfl, hu, hfull⟩)
    · exact ⟨[], p, b, as, s, rfl, rfl, hfull⟩
    · exact ⟨a :: as₁, p, b, as₂, u, rfl, by
        rw [System.run, show (system nproc nlog).step s a = some t from ht]; exact hu, hfull⟩

theorem run_too_big_iff (s s' : State nproc) (as : List (Act nproc)) (h : (system nproc nlog).Reach s)
    (hsize : s.log.size = nlog) (hs : s.stopped = none) (hr : (system nproc nlog).run s as = some s') :
    s'.stopped = some "too big a transaction" ↔ CallsWhenFull s as := by
  induction as generalizing s with
  | nil =>
    cases hr
    simp only [hs, CallsWhenFull]
    constructor
    · intro hf; cases hf
    · rintro ⟨as₁, p, b, as₂, t, he, -⟩; cases as₁ <;> cases he
  | cons a as ih =>
    obtain ⟨t, ht, hr⟩ := Option.bind_eq_some_iff.mp hr
    have hm := (move_of_step s t a ht).2
    have hinv := inv_of_reach nproc nlog s h
    have hreach := System.Reach.step s t a h ht
    rw [callsWhenFull_cons s t a as ht]
    have hcall := move_too_big s t a hs hm
    simp only [full_iff s hinv hsize] at hcall
    by_cases hstop : t.stopped = none
    · rw [ih t hreach (by rw [move_size s t a hm, hsize]) hstop hr, ← hcall, hstop]
      simp
    · obtain ⟨rfl, rfl⟩ := run_stopped nlog t s' as hstop hr
      rw [hcall]
      constructor
      · exact Or.inl
      · rintro (hf | ⟨as₁, p, b, as₂, u, he, -⟩)
        · exact hf
        · cases as₁ <;> cases he

/-- **When `log_write` runs out of log.** With the log size that `mkfs` writes, a run stops with
"too big a transaction" if and only if some `log_write` is called when the operations of the current
group have already logged `nlog - 1` distinct blocks. -/
theorem log_write_too_big_iff (nproc start : Nat) (block : Nat → Nat) (as : List (Act nproc)) (s : State nproc)
    (hr : (system nproc nlog).run (initial nproc start nlog block) as = some s) :
    s.stopped = some "too big a transaction" ↔ CallsWhenFull (initial nproc start nlog block) as :=
  run_too_big_iff _ s as (.init _ ⟨start, block, rfl⟩) rfl rfl hr

def Within (m : Nat) (s : State nproc) : Act nproc → Prop
  | .log_write p b => (b :: s.mine p).toFinset.card ≤ m
  | _ => True

instance (m : Nat) (s : State nproc) (a : Act nproc) : Decidable (Within m s a) :=
  match a with
  | .log_write p b => inferInstanceAs (Decidable ((b :: s.mine p).toFinset.card ≤ m))
  | .begin_op _ | .enter _ | .wake _ | .absorb _ | .end_op _ | .commit _ | .end_commit _ => .isTrue trivial

def threeFull : List (Act 3) :=
  [.begin_op 0, .enter 0, .begin_op 1, .enter 1, .begin_op 2, .enter 2] ++
    (List.range 29).flatMap (fun k => [.log_write (Fin.ofNat 3 (k / 10)) (100 + k), .absorb (Fin.ofNat 3 (k / 10))]) ++
    [.log_write 2 129]

theorem threeFull_run :
    ((system 3 nlog).runIf (Within MAXOPBLOCKS) (initial 3 2 nlog fun _ => 0) threeFull).map (·.stopped) =
      some (some "too big a transaction") := by decide +kernel

theorem three_full_operations_panic : ∃ s : State 3, (system 3 nlog).ReachIf (Within MAXOPBLOCKS) s ∧
    s.stopped = some "too big a transaction" := by
  obtain ⟨s, hreach, he⟩ := (system 3 nlog).reachIf_of_map ⟨2, _, rfl⟩ threeFull_run
  exact ⟨s, hreach, he⟩

theorem log_write_too_big_threeFull : CallsWhenFull (initial 3 2 nlog fun _ => 0) threeFull := by
  have hrun : ((system 3 nlog).run (initial 3 2 nlog fun _ => 0) threeFull).map (·.stopped) =
      some (some "too big a transaction") := by decide +kernel
  obtain ⟨s, hs, he⟩ := Option.map_eq_some_iff.mp hrun
  exact (log_write_too_big_iff 3 2 (fun _ => 0) threeFull s hs).mp he

/-! ## Reservations

`lh.n` and what the open operations may still log stay within the bound `M`, if each operation
logs at most `m` distinct blocks. -/

def rest (m : Nat) (s : State nproc) (p : Fin nproc) : Nat := (s.pc p).busy * (m - (s.mine p).toFinset.card)

structure Room (m M : Nat) (s : State nproc) : Prop where
  mine : ∀ p, (s.pc p).busy = 1 → ∀ b ∈ s.mine p, b ∈ s.logged
  calls : ∀ p b, s.pc p = .logging b → (b :: s.mine p).toFinset.card ≤ m
  room : s.log.lh.n + ∑ p, rest m s p ≤ M

theorem busy_le_one (pc : Pc) : pc.busy ≤ 1 := by cases pc <;> simp [Pc.busy]

theorem rest_le (m : Nat) (s : State nproc) : ∑ p, rest m s p ≤ active s.pc * m := by
  rw [active, Finset.sum_mul]
  exact Finset.sum_le_sum (fun p _ => Nat.mul_le_mul_left _ (Nat.sub_le _ _))

theorem room_of_move (s s' : State nproc) (p : Fin nproc) (h : s.log.lh.n + ∑ q, rest m s q ≤ M)
    (ho : ∀ q, q ≠ p → rest m s' q = rest m s q)
    (hp : s'.log.lh.n + rest m s' p ≤ s.log.lh.n + rest m s p) : s'.log.lh.n + ∑ q, rest m s' q ≤ M := by
  have := sum_move (rest m s) (rest m s') p ho
  omega

theorem rest_wakeup (m : Nat) (s : State nproc) (p : Fin nproc) : rest m (wakeup s) p = rest m s p := by
  simp only [rest, wakeup]
  split
  · rename_i h; rw [h]; rfl
  · rfl

theorem room_setPc (pc : Pc) (log : Log) (h : Room m M s)
    (hlh : log.lh = s.log.lh) (hb : pc.busy ≤ (s.pc p).busy)
    (hl : ∀ b, pc = .logging b → (b :: s.mine p).toFinset.card ≤ m) :
    Room m M (setPc { s with log := log } p pc) := by
  refine ⟨?_, ?_, ?_⟩
  · intro q hq
    by_cases hqp : q = p
    · subst hqp
      simp only [setPc, update_self] at hq
      exact h.mine q (by have := busy_le_one (s.pc q); omega)
    · exact h.mine q (by simpa [setPc, hqp] using hq)
  · intro q b hq
    by_cases hqp : q = p
    · subst hqp; exact hl b (by simpa [setPc] using hq)
    · exact h.calls q b (by simpa [setPc, hqp] using hq)
  · apply room_of_move m M s _ p h.room (fun q hq => by simp [rest, setPc, hq])
    simp only [rest, setPc, update_self, hlh]
    exact Nat.add_le_add_left (Nat.mul_le_mul_right _ hb) _

theorem room_wakeup (h : Room m M s) : Room m M (wakeup s) := by
  refine ⟨?_, ?_, ?_⟩
  · intro p hp
    simp only [wakeup] at hp
    split at hp
    · cases hp
    · exact h.mine p hp
  · intro p b hp
    simp only [wakeup] at hp
    split at hp
    · cases hp
    · exact h.calls p b hp
  · simp only [rest_wakeup]; exact h.room

/-- What `begin_op` admits, in terms of the bound, when `k` operations are open. -/
def Admits (m M : Nat) : Prop :=
  ∀ n k : Nat, n + (k + 1) * MAXOPBLOCKS ≤ LOGSIZE → (k = 0 → n = 0) → n + (k + 1) * m ≤ M

theorem room_enter (hM : Admits m M) (hi : Inv s) (h : Room m M s)
    (hp : s.pc p = .beginning) : Room m M (enter s p) := by
  unfold enter
  split
  · exact room_setPc m M s p _ s.log h rfl (by simp [Pc.busy]) (by simp)
  split
  · exact room_setPc m M s p _ s.log h rfl (by simp [Pc.busy]) (by simp)
  · rename_i hc hcr
    have hcount := hi.count
    -- The open operations reserve at most `m` each, and the new one `m`.
    have hn : s.log.lh.n + (active s.pc + 1) * m ≤ M := by
      apply hM
      · simp only [Log.crowded, hcount, not_lt] at hcr; exact_mod_cast hcr
      · intro hk; exact hi.empty (by simpa using hc) (by rw [hcount, hk]; rfl)
    have hrest := rest_le m s
    refine ⟨?_, ?_, ?_⟩
    · intro q hq b hb
      by_cases hqp : q = p
      · subst hqp; simp [setPc] at hb
      · simp only [setPc, update_of_ne hqp] at hq hb; exact h.mine q hq b hb
    · intro q b hq
      by_cases hqp : q = p
      · subst hqp; simp [setPc] at hq
      · simp only [setPc, update_of_ne hqp] at hq ⊢; exact h.calls q b hq
    · have hmove := sum_move (rest m s) (rest m (setPc { s with
          log := { s.log with outstanding := s.log.outstanding + 1 }, mine := update s.mine p [] }
          p .running)) p (fun q hq => by simp [rest, setPc, hq])
      have hold : rest m s p = 0 := by simp [rest, hp, Pc.busy]
      rw [hold] at hmove
      rw [show ∀ t, rest m t p = (t.pc p).busy * (m - (t.mine p).toFinset.card) from fun _ => rfl] at hmove
      simp only [setPc, update_self, Pc.busy, List.toFinset_nil, Finset.card_empty] at hmove ⊢
      rw [Nat.add_mul] at hn
      omega

theorem room_absorb (b : Nat) (hi : Inv s) (h : Room m M s)
    (hp : s.pc p = .logging b) : Room m M (absorb s p b) := by
  have hcall := h.calls p b hp
  have hbusy : (s.pc p).busy = 1 := by rw [hp]; rfl
  refine ⟨?_, ?_, ?_⟩
  · intro q hq c hc
    by_cases hqp : q = p
    · subst hqp
      simp only [absorb, setPc, update_self, List.mem_cons] at hc ⊢
      rcases hc with rfl | hc
      · exact Or.inl rfl
      · exact Or.inr (h.mine q hbusy c hc)
    · simp only [absorb, setPc, update_of_ne hqp] at hq hc
      exact List.mem_cons_of_mem _ (h.mine q hq c hc)
  · intro q c hq
    by_cases hqp : q = p
    · subst hqp; simp [absorb, setPc] at hq
    · simp only [absorb, setPc, update_of_ne hqp] at hq ⊢; exact h.calls q c hq
  · apply room_of_move m M s _ p h.room (fun q hq => by simp [rest, absorb, setPc, hq])
    rw [rest, rest, hbusy]
    simp only [absorb, setPc, update_self, LogHeader.absorb_n, Pc.busy, one_mul]
    by_cases hb : b ∈ s.mine p
    · -- A repeated block is in `lh` already.
      rw [if_pos ((hi.exact b).mpr (h.mine p hbusy b hb)), List.toFinset_cons,
        Finset.insert_eq_of_mem (by simpa using hb)]
    · rw [List.toFinset_cons, Finset.card_insert_of_notMem (by simpa using hb)] at hcall ⊢
      split <;> omega

theorem room_end_op (h : Room m M s) : Room m M (end_op s p) := by
  unfold end_op
  dsimp only
  split
  · exact ⟨h.mine, h.calls, h.room⟩
  split
  · exact room_setPc m M s p .commit _ h rfl (by simp [Pc.busy]) (by simp)
  · exact room_wakeup m M _ (room_setPc m M s p .idle _ h rfl (by simp [Pc.busy]) (by simp))

theorem room_commit (hi : Inv s) (h : Room m M s)
    (hp : s.pc p = .commit) : Room m M (commit s p) := by
  have hcm := committing_of_commits s p hi (by rw [hp]; rfl)
  have hidle : ∀ q, (s.pc q).busy = 0 := by
    intro q
    by_contra hq
    have := not_committing_of_busy s q hi (by have := busy_le_one (s.pc q); omega)
    simp [hcm] at this
  have hroom := h.room
  have hrest : ∀ q, rest m (commit s p) q ≤ rest m s q := by
    intro q
    by_cases hqp : q = p
    · subst hqp; simp [rest, commit, setPc, Pc.busy]
    · simp [rest, commit, setPc, hqp]
  refine ⟨?_, ?_, ?_⟩
  · intro q hq
    by_cases hqp : q = p
    · subst hqp; simp [commit, setPc, Pc.busy] at hq
    · simp [commit, setPc, hqp, hidle] at hq
  · intro q b hq
    have := hidle q
    by_cases hqp : q = p
    · subst hqp; simp [commit, setPc] at hq
    · simp only [commit, setPc, update_of_ne hqp] at hq; rw [hq] at this; cases this
  · have := Finset.sum_le_sum (fun q (_ : q ∈ Finset.univ) => hrest q)
    simp only [commit, setPc] at this ⊢
    omega

theorem room_move (s s' : State nproc) (a : Act nproc) (hM : Admits m M) (hi : Inv s) (h : Room m M s)
    (hc : Within m s a) (hm : Move s a s') : Room m M s' := by
  cases hm with
  | begin_op p hp => exact room_setPc m M s p _ s.log h rfl (by simp [Pc.busy]) (by simp)
  | enter p hp => exact room_enter m M s p hM hi h hp
  | wake p hp => exact room_setPc m M s p _ s.log h rfl (by simp [Pc.busy]) (by simp)
  | log_write p b hp =>
    unfold log_write
    split_ifs
    · exact ⟨h.mine, h.calls, h.room⟩
    · exact ⟨h.mine, h.calls, h.room⟩
    · exact room_setPc m M s p _ s.log h rfl (by rw [hp]; simp [Pc.busy]) (by rintro c ⟨⟩; exact hc)
  | absorb p b hp => exact room_absorb m M s p b hi h hp
  | end_op p hp => exact room_end_op m M s p h
  | commit p hp => exact room_commit m M s p hi h hp
  | end_commit p hp =>
    exact room_wakeup m M _ (room_setPc m M s p .idle _ h rfl (by simp [Pc.busy]) (by simp))

theorem room_of_reachIf (m M size : Nat) (hM : Admits m M) (s : State nproc)
    (h : (system nproc size).ReachIf (Within m) s) : Room m M s := by
  apply ((system nproc size).reachIf_inv (Within m) (fun s => Inv s ∧ Room m M s) _ _ s h).2
  · rintro s ⟨start, block, rfl⟩
    refine ⟨inv_initial nproc start size block, ?_, ?_, ?_⟩ <;> simp [initial, rest, Pc.busy]
  · rintro s a s' ⟨hi, hr⟩ hc hs
    have hm := (move_of_step s s' a hs).2
    exact ⟨inv_move s s' a hi hm, room_move m M s s' a hM hi hr hc hm⟩

theorem lh_room (h : (system nproc nlog).ReachIf (Within 9) s) : s.log.lh.n + 1 < nlog := by
  have hM : Admits 9 28 := by
    intro n k hk h0
    simp only [MAXOPBLOCKS, LOGSIZE] at hk
    omega
  have := (room_of_reachIf 9 28 nlog hM s h).room
  have h30 : nlog = 30 := rfl
  omega

/-- **Nine blocks for each operation are enough.** When no operation logs more than nine distinct blocks, one fewer than
`MAXOPBLOCKS`, no call of `log_write` finds the log full. -/
theorem nine_blocks_suffice (nproc : Nat) (s : State nproc) (h : (system nproc nlog).ReachIf (Within 9) s) :
    s.log.lh.n + 1 < nlog ∧ s.stopped ≠ some "too big a transaction" := by
  refine ⟨lh_room s h, ?_⟩
  suffices hall : Inv s ∧ s.log.size = nlog ∧ s.stopped ≠ some "too big a transaction" from hall.2.2
  induction h with
  | init s hs =>
    obtain ⟨start, block, rfl⟩ := hs
    exact ⟨inv_initial nproc start nlog block, rfl, by simp [initial]⟩
  | step s s' a hr _ hs ih =>
    obtain ⟨hi, hsize, -⟩ := ih
    obtain ⟨hrun, hm⟩ := move_of_step s s' a hs
    refine ⟨inv_move s s' a hi hm, (move_size s s' a hm).trans hsize, fun hbig => ?_⟩
    obtain ⟨-, -, -, hfull⟩ := (move_too_big s s' a hrun hm).mp hbig
    have hn := (full_iff s hi hsize).mp hfull
    have := lh_room s hr
    rw [← n_eq_logged s hi] at hn
    omega

def nineEach : List (Act 3) :=
  [.begin_op 0, .enter 0, .begin_op 1, .enter 1, .begin_op 2, .enter 2] ++
    (List.range 27).flatMap fun k => [.log_write (Fin.ofNat 3 (k / 9)) (100 + k), .absorb (Fin.ofNat 3 (k / 9))]

theorem nine_blocks_suffice_nineEach : ∃ s : State 3, (system 3 nlog).ReachIf (Within 9) s ∧ s.log.lh.n = 27 ∧
    s.stopped ≠ some "too big a transaction" := by
  have hrun : ((system 3 nlog).runIf (Within 9) (initial 3 2 nlog fun _ => 0) nineEach).map (·.log.lh.n) = some 27 := by
    decide +kernel
  obtain ⟨s, hreach, hn⟩ := (system 3 nlog).reachIf_of_map ⟨2, _, rfl⟩ hrun
  exact ⟨s, hreach, hn, (nine_blocks_suffice 3 s hreach).2⟩

end Xv6.Group
