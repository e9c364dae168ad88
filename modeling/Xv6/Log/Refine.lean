import Xv6.Log.Crash

/-!
# The cache and the log behave like one map of blocks

A client runs transactions. `spec` is the map: what was last passed to `log_write` for each
block, or what the disk held at first.
-/

open Lib Lib.Cmd Function

namespace Xv6

/-- Block `b` now has contents `d`, in the cache only. -/
def View.log (v : View) (i : Fin NBUF) (b : Nat) (d : Block) : View :=
  { v with m := update v.m b d, pend := insert b v.pend, mod := v.mod.erase i }

def logged (k : Kernel) (i : Fin NBUF) : Kernel :=
  { k with log := { k.log with lh := k.log.lh.absorb (k.buf i).blockno } }.setBuf i fun b => { b with dirty := true }

variable (m : Nat → Block) (k : Kernel) (i : Fin NBUF)

theorem logged_buf : (logged k i).buf i = { k.buf i with dirty := true } := by
  simp [logged, Kernel.setBuf, Kernel.buf]

theorem logged_buf_ne (i j : Fin NBUF) (hj : j ≠ i) : (logged k i).buf j = k.buf j := by
  simp [logged, Kernel.setBuf, Kernel.buf, hj]

theorem logged_coh (v : View) (k : Kernel) (h : Coh v k) (i : Fin NBUF) (b : Nat) (hi : Got v k i b)
    (hv : (k.buf i).valid = true) : Coh (v.log i b (k.buf i).data) (logged k i) := by
  have hne : ∀ j, j ≠ i → (k.buf j).dev = ROOTDEV → (k.buf j).blockno ≠ b := by
    intro j hj hd hjb
    exact hj (buf_inj v k h j i hd hi.dev (hjb.trans hi.blockno.symm))
  have hself := logged_buf k i
  have hother := logged_buf_ne k i
  refine ⟨h.linked, ?_, ?_, ?_, ?_, h.evicted⟩
  · exact setBuf_unique k.bcache i (fun b => { b with dirty := true }) h.unique rfl rfl
  · intro j
    have hb := h.bufs j
    by_cases hj : j = i
    · subst hj
      rw [hself]
      refine ⟨hb.refcnt, hb.lock, fun hm => ?_, ?_, fun _ => ⟨hi.dev, hv, ?_⟩⟩
      · simp [View.log] at hm
      · intro _ _ _; simp [View.log, hi.blockno]
      · simp [View.log, hi.blockno]
    · rw [hother j hj]
      refine ⟨hb.refcnt, hb.lock, fun hm => hb.mod (Finset.mem_of_mem_erase hm), ?_, ?_⟩
      · intro hm hd hv
        have hm : j ∉ v.mod := fun hm' => hm (Finset.mem_erase.mpr ⟨hj, hm'⟩)
        simpa [View.log, hne j hj hd] using hb.data hm hd hv
      · intro hd
        obtain ⟨h1, h2, h3⟩ := hb.dirty hd
        exact ⟨h1, h2, Finset.mem_insert_of_mem h3⟩
  · intro c hc
    rcases Finset.mem_insert.mp hc with rfl | hc
    · exact ⟨i, by rw [hself]; exact ⟨hi.dev, hi.blockno, rfl⟩⟩
    · obtain ⟨j, h1, h2, h3⟩ := h.pinned c hc
      by_cases hj : j = i
      · subst hj; exact ⟨j, by rw [hself]; exact ⟨h1, h2, rfl⟩⟩
      · exact ⟨j, by rw [hother j hj]; exact ⟨h1, h2, h3⟩⟩
  · intro c hc
    simp only [View.log, Finset.mem_insert, not_or] at hc
    simpa [View.log, hc.1, logged, Kernel.setBuf] using h.disk c hc.2

theorem log_write_spec (Q : Unit → Kernel → Prop) (E : Stop → Kernel → Prop)
    (hq : k.log.full = false → 1 ≤ k.log.outstanding → Q () (logged k i))
    (hfull : k.log.full = true → E (.panic "too big a transaction") k)
    (hout : k.log.outstanding < 1 → E (.panic "log_write outside of trans") k) : wp (log_write i) Q E k := by
  unfold log_write
  rw [wp_bind, wp_get]
  split
  · rename_i hf; exact hfull hf
  · rename_i hf
    split
    · rename_i ho; exact hout ho
    · rename_i ho
      simp only [wp_bind, wp_modify]
      exact hq (by simpa using hf) (by omega)

theorem begin_op_spec :
    wp begin_op (fun _ k' => k' = { k with log := { k.log with outstanding := k.log.outstanding + 1 } })
      (fun _ _ => k.log.committing = true ∨ k.log.crowded) k := by
  unfold begin_op
  rw [wp_bind, wp_get]
  split
  · rename_i hc; exact Or.inl hc
  · split
    · rename_i hc; exact Or.inr hc
    · rfl

structure Client where
  k : Kernel
  /-- The map of blocks. -/
  spec : Nat → Block
  /-- Between `begin_op` and `end_op`. -/
  inOp : Bool
  /-- Buffers changed since they were last passed to `log_write`. -/
  edited : Finset (Fin NBUF)

inductive Act where
  | begin_op
  | bread (b : Nat)
  | edit (i : Fin NBUF) (d : Block)
  | log_write (i : Fin NBUF)
  | brelse (i : Fin NBUF)
  | end_op

namespace Client

def holding (s : Client) (i : Fin NBUF) : Bool := s.k.bcache.holdingsleep s.k.pid i

def done {α : Type} (r : Except Stop α × Kernel) : Option Kernel :=
  match r with
  | (.ok _, k) => some k
  | (.error _, _) => none

/-- The client's rules are the conditions: it reads blocks of the disk outside the log, touches only buffers it has
locked, passes each change to `log_write` before `brelse`, and has no buffer at `end_op`. -/
def step (s : Client) : Act → Option Client
  | .begin_op => if s.inOp then none else (done (begin_op s.k)).map fun k => { s with k := k, inOp := true }
  | .bread b =>
    if s.k.log.outside b ∧ b < s.k.disksize then (done (bread s.k.log.dev b s.k)).map fun k => { s with k := k }
      else none
  | .edit i d =>
    if s.inOp ∧ s.holding i then
      (done (setData i (fun _ => d) s.k)).map fun k => { s with k := k, edited := insert i s.edited }
    else none
  | .log_write i =>
    if s.inOp ∧ s.holding i then
      (done (log_write i s.k)).map fun k =>
        { s with k := k, spec := update s.spec (s.k.buf i).blockno (s.k.buf i).data,
                 edited := s.edited.erase i }
    else none
  | .brelse i =>
    if s.holding i ∧ i ∉ s.edited then (done (brelse i s.k)).map fun k => { s with k := k } else none
  | .end_op =>
    if s.inOp ∧ ∀ i, s.holding i = false then
      (done (end_op s.k)).map fun k => { s with k := k, inOp := false }
    else none

/-- After boot, on any disk. -/
structure Booted (s : Client) : Prop where
  bcache : s.k.bcache = Bcache.boot.binit
  evicted : s.k.evicted = []
  n : s.k.log.lh.n = 0
  outstanding : s.k.log.outstanding = 0
  committing : s.k.log.committing = false
  dev : s.k.log.dev = ROOTDEV
  area : s.k.log.start + s.k.log.size ≤ s.k.disksize
  size : 0 < s.k.log.size
  disksize : s.k.disksize ≤ 2 ^ 32 / BSIZE
  spec : s.spec = s.k.disk
  inOp : s.inOp = false
  edited : s.edited = ∅

def system : System Client Act where
  init := Booted
  step := step

theorem done_eq_some {α : Type} (r : Except Stop α × Kernel) (k : Kernel) (h : done r = some k) :
    ∃ a, r = (.ok a, k) := by
  obtain ⟨r, k'⟩ := r
  cases r with
  | ok a => cases h; exact ⟨a, rfl⟩
  | error e => cases h

structure InvAt (m : Nat → Block) (held : Finset (Fin NBUF)) (s : Client) : Prop where
  coh : Coh ⟨m, s.k.log.lh.blocks.toFinset, held, s.edited⟩ s.k
  map : ∀ b, s.k.log.outside b → m b = s.spec b
  held : ∀ i ∈ held, (s.k.buf i).dev = ROOTDEV ∧ (s.k.buf i).valid = true ∧ s.k.log.outside (s.k.buf i).blockno ∧
    (s.k.buf i).blockno < s.k.disksize
  dev : s.k.log.dev = ROOTDEV
  area : s.k.log.start + s.k.log.size ≤ s.k.disksize
  disksize : s.k.disksize ≤ 2 ^ 32 / BSIZE
  logged : ∀ b ∈ s.k.log.lh.blocks, s.k.log.outside b ∧ b < s.k.disksize
  nodup : s.k.log.lh.blocks.Nodup
  room : s.k.log.lh.n < s.k.log.size
  slots : s.k.log.lh.n ≤ LOGSIZE
  outstanding : s.k.log.outstanding = if s.inOp then 1 else 0
  committing : s.k.log.committing = false
  idle : s.inOp = false → s.k.log.lh.n = 0

def Inv (s : Client) : Prop := ∃ m held, InvAt m held s

theorem inv_init (s : Client) (h : Booted s) : Inv s := by
  have hb : s.k.log.lh.blocks = [] := by simp [LogHeader.blocks, h.n]
  refine ⟨s.k.disk, ∅, ?_, fun b _ => by rw [h.spec], by simp, h.dev, h.area, h.disksize, by simp [hb], by simp [hb],
    by rw [h.n]; exact h.size, by rw [h.n]; omega, by simp [h.outstanding, h.inOp], h.committing, fun _ => h.n⟩
  rw [hb, h.edited]
  exact boot_coh s.k h.bcache h.evicted

theorem held_of_holding (held : Finset (Fin NBUF)) (s : Client) (h : InvAt m held s) (i : Fin NBUF) :
    s.holding i = true ↔ i ∈ held := by
  constructor
  · intro hh
    by_contra hi
    have hl := (h.coh.bufs i).lock
    simp only [hi, if_false] at hl
    simp only [holding, Bcache.holdingsleep] at hh
    rw [show s.k.bcache.buf i = s.k.buf i from rfl, hl] at hh
    cases hh
  · exact holding_of_held _ _ h.coh i

theorem held_empty (held : Finset (Fin NBUF)) (s : Client) (h : InvAt m held s)
    (hno : ∀ i, s.holding i = false) : held = ∅ := by
  ext i
  have := (held_of_holding m held s h i).mpr
  simp only [hno i, Bool.false_eq_true, imp_false] at this
  simpa using this

theorem layout (held : Finset (Fin NBUF)) (s : Client) (h : InvAt m held s) :
    Layout s.k.log s.k.disksize where
  dev := h.dev
  room := h.room
  slots := h.slots
  area := h.area
  home := by
    intro t ht
    have := h.logged _ ((LogHeader.mem_blocks _ _).mpr ⟨t, ht, rfl⟩)
    exact ⟨this.2, this.1⟩
  distinct := by
    intro i hi t ht he
    have := List.inj_on_of_nodup_map h.nodup (List.mem_range.mpr hi) (List.mem_range.mpr ht) he
    exact this
  size := h.disksize

theorem inv_same_log (held held' : Finset (Fin NBUF)) (s : Client) (h : InvAt m held s) (k' : Kernel)
    (edited' : Finset (Fin NBUF)) (hlog : k'.log = s.k.log) (hsize : k'.disksize = s.k.disksize)
    (hc : Coh ⟨m, s.k.log.lh.blocks.toFinset, held', edited'⟩ k')
    (hheld : ∀ i ∈ held', (k'.buf i).dev = ROOTDEV ∧ (k'.buf i).valid = true ∧ s.k.log.outside (k'.buf i).blockno ∧
      (k'.buf i).blockno < s.k.disksize) :
    InvAt m held' { s with k := k', edited := edited' } where
  coh := by rw [hlog]; exact hc
  map := by rw [hlog]; exact h.map
  held := by rw [hlog, hsize]; exact hheld
  dev := by rw [hlog]; exact h.dev
  area := by rw [hlog, hsize]; exact h.area
  disksize := by rw [hsize]; exact h.disksize
  logged := by rw [hlog, hsize]; exact h.logged
  nodup := by rw [hlog]; exact h.nodup
  room := by rw [hlog]; exact h.room
  slots := by rw [hlog]; exact h.slots
  outstanding := by rw [hlog]; exact h.outstanding
  committing := by rw [hlog]; exact h.committing
  idle := by rw [hlog]; exact h.idle

section

variable (m : Nat → Block) (held : Finset (Fin NBUF)) (s : Client) (h : InvAt m held s)
include h

theorem inv_bread (b : Nat) (i : Fin NBUF) (k' : Kernel) (hout : s.k.log.outside b) (hb : b < s.k.disksize)
    (hr : bread ROOTDEV b s.k = (.ok i, k')) : InvAt m (insert i held) { s with k := k' } := by
  have hp := wp_ok _ _ _ _ _ _ (bread_spec _ s.k h.coh b) hr
  refine inv_same_log m held _ s h k' s.edited hp.wrote.log hp.wrote.disksize hp.coh ?_
  intro j hj
  by_cases hji : j = i
  · subst hji
    rw [hp.got.blockno]
    exact ⟨hp.got.dev, hp.valid, hout, hb⟩
  · rw [hp.other j hji]
    exact h.held j ((Finset.mem_insert.mp hj).resolve_left hji)

theorem inv_edit (i : Fin NBUF) (d : Block) (hi : i ∈ held) :
    InvAt m held { s with k := s.k.setBuf i (fun b => { b with data := d }), edited := insert i s.edited } := by
  refine inv_same_log m held held s h _ _ rfl rfl (setData_coh _ s.k h.coh i hi fun _ => d) ?_
  intro j hj
  by_cases hji : j = i
  · subst hji; rw [Kernel.buf_setBuf]; exact h.held j hj
  · rw [Kernel.buf_setBuf_ne _ _ _ _ hji]; exact h.held j hj

theorem inv_brelse (i : Fin NBUF) (hi : i ∈ held) (he : i ∉ s.edited) :
    InvAt m (held.erase i) { s with k := released s.k i } := by
  refine inv_same_log m held _ s h _ s.edited rfl rfl (released_coh _ s.k h.coh i hi he) ?_
  intro j hj
  obtain ⟨hji, hj⟩ := Finset.mem_erase.mp hj
  rw [released_buf_ne s.k i j hji]
  exact h.held j hj

theorem inv_log_write (i : Fin NBUF) (hi : i ∈ held) (hop : s.inOp = true) (hfull : s.k.log.full = false) :
    InvAt (update m (s.k.buf i).blockno (s.k.buf i).data) held
      { s with k := logged s.k i, spec := update s.spec (s.k.buf i).blockno (s.k.buf i).data,
               edited := s.edited.erase i } := by
  obtain ⟨hdev, hv, hout, hsize⟩ := h.held i hi
  have hlh : (logged s.k i).log.lh = s.k.log.lh.absorb (s.k.buf i).blockno := rfl
  have hblocks : (s.k.log.lh.absorb (s.k.buf i).blockno).blocks.toFinset =
      insert (s.k.buf i).blockno s.k.log.lh.blocks.toFinset := by
    rw [LogHeader.absorb_blocks]
    ext b
    split
    · rename_i hm
      simp only [Finset.mem_insert, List.mem_toFinset]
      exact ⟨Or.inr, fun hb => hb.elim (fun he => he ▸ hm) id⟩
    · simp
  have hn := LogHeader.absorb_n s.k.log.lh (s.k.buf i).blockno
  simp only [Log.full, Bool.or_eq_false_iff, decide_eq_false_iff_not] at hfull
  have hle : (s.k.log.lh.absorb (s.k.buf i).blockno).n ≤ s.k.log.lh.n + 1 := by
    rw [hn]; split <;> omega
  refine ⟨?_, ?_, ?_, h.dev, h.area, h.disksize, ?_, ?_, ?_, ?_, h.outstanding, h.committing, ?_⟩
  · have hc := logged_coh _ s.k h.coh i _ ⟨hi, hdev, rfl⟩ hv
    rw [hlh, hblocks]
    exact hc
  · intro b hb
    dsimp only
    by_cases hbi : b = (s.k.buf i).blockno
    · rw [hbi, update_self, update_self]
    · rw [update_of_ne hbi, update_of_ne hbi]
      exact h.map b hb
  · intro j hj
    by_cases hji : j = i
    · subst hji; dsimp only; rw [logged_buf]; exact h.held j hj
    · dsimp only; rw [logged_buf_ne s.k i j hji]; exact h.held j hj
  · intro b hb
    rw [hlh, ← List.mem_toFinset, hblocks, Finset.mem_insert, List.mem_toFinset] at hb
    rcases hb with rfl | hb
    · exact ⟨hout, hsize⟩
    · exact h.logged b hb
  · exact LogHeader.absorb_nodup _ _ h.nodup
  · change (s.k.log.lh.absorb (s.k.buf i).blockno).n < s.k.log.size
    omega
  · change (s.k.log.lh.absorb (s.k.buf i).blockno).n ≤ LOGSIZE
    omega
  · intro hno; rw [hop] at hno; cases hno

theorem inv_begin_op (hop : s.inOp = false) :
    InvAt m held { s with
      k := { s.k with log := { s.k.log with outstanding := s.k.log.outstanding + 1 } }, inOp := true } where
  coh := coh_log _ s.k h.coh _
  map := h.map
  held := h.held
  dev := h.dev
  area := h.area
  disksize := h.disksize
  logged := h.logged
  nodup := h.nodup
  room := h.room
  slots := h.slots
  outstanding := by
    have := h.outstanding
    rw [hop] at this
    simp [this]
  committing := h.committing
  idle := by intro hno; cases hno

theorem commit_inv (k : Kernel) (hheld : held = ∅)
    (hk : k = { s.k with log := { s.k.log with outstanding := 0, committing := true } }) :
    wp commit (fun _ k' => ∃ m', InvAt m' ∅
        { s with k := { k' with log := { k'.log with committing := false } }, inOp := false })
      (fun _ _ => NBUF ≤ s.k.log.lh.n) k := by
  subst hheld
  have hed : s.edited = ∅ := by
    ext i
    simpa using (h.coh.bufs i).mod
  have hl : Layout k.log k.disksize := by
    have := layout m ∅ s h
    rw [hk]
    exact ⟨this.dev, this.room, this.slots, this.area, this.home, this.distinct, this.size⟩
  have hc : Coh (quiet m k.log.lh.blocks.toFinset) k := by
    have := h.coh
    rw [hed] at this
    rw [hk]
    exact coh_log _ s.k this _
  -- What is left to say about the state after a commit that emptied the log.
  have hend : ∀ m' k', Coh (quiet m' ∅) k' → k'.log = { k.log with lh := { k.log.lh with n := 0 } } →
      k'.disksize = k.disksize → (∀ b, s.k.log.outside b → m' b = m b) →
      InvAt m' ∅ { s with k := { k' with log := { k'.log with committing := false } }, inOp := false } := by
    intro m' k' hc' hlog hsize hm
    have hb : (LogHeader.mk 0 k.log.lh.block).blocks = [] := rfl
    rw [hlog]
    refine ⟨?_, ?_, by simp, hl.dev, ?_, ?_, by simp [hb], by simp [hb], ?_, by simp, ?_, rfl, fun _ => rfl⟩
    · rw [hed]; exact coh_log _ k' hc' _
    · intro b hb
      have hb : s.k.log.outside b := by rw [hk] at hb; exact hb
      exact (hm b hb).trans (h.map b hb)
    · rw [← hsize] at hl; exact hl.area
    · rw [← hsize] at hl; exact hl.size
    · have := hl.room; change 0 < k.log.size; omega
    · rw [hk]; rfl
  rcases Nat.eq_zero_or_pos k.log.lh.n with hn | hn
  · unfold wp
    rw [commit_empty k hn]
    refine ⟨m, hend m k ?_ ?_ rfl (fun _ _ => rfl)⟩
    · have : k.log.lh.blocks = [] := by simp [LogHeader.blocks, hn]
      rwa [this] at hc
    · rw [← hn]
  · refine wp_mono _ _ _ _ _ _ (commit_spec m k hc hl hn) ?_ ?_
    · rintro _ k' ⟨hc', -, hlog, hsize, -⟩
      refine ⟨_, hend _ k' hc' hlog hsize (fun b hb => ?_)⟩
      exact commitWrites_outside k.log _ hl m b (by rw [hk]; exact hb)
    · rintro _ k' ⟨hr, -⟩
      rw [hk] at hr
      exact hr

theorem end_op_spec (hop : s.inOp = true) (hheld : held = ∅) :
    wp end_op (fun _ k' => ∃ m', InvAt m' ∅ { s with k := k', inOp := false })
      (fun _ _ => NBUF ≤ s.k.log.lh.n) s.k := by
  have hout : s.k.log.outstanding = 1 := by rw [h.outstanding, hop]; rfl
  unfold end_op
  simp only [wp_bind, wp_modify, wp_get, hout, h.committing, Bool.false_eq_true, if_false, Int.sub_self, if_true]
  exact commit_inv m held s h _ hheld rfl

end

theorem inv_step (s : Client) (a : Act) (s' : Client) (h : Inv s) (hs : system.step s a = some s') : Inv s' := by
  obtain ⟨m, held, h⟩ := h
  cases a with
  | begin_op =>
    simp only [system, step] at hs
    split at hs
    · cases hs
    · rename_i hop
      obtain ⟨k', hk, rfl⟩ := Option.map_eq_some_iff.mp hs
      obtain ⟨a, hr⟩ := done_eq_some _ _ hk
      have := wp_ok _ _ _ _ _ _ (begin_op_spec s.k) hr
      subst this
      exact ⟨m, held, inv_begin_op m held s h (by simpa using hop)⟩
  | bread b =>
    simp only [system, step] at hs
    split at hs
    · rename_i hb
      obtain ⟨k', hk, rfl⟩ := Option.map_eq_some_iff.mp hs
      obtain ⟨i, hr⟩ := done_eq_some _ _ hk
      rw [h.dev] at hr
      exact ⟨m, _, inv_bread m held s h b i k' hb.1 hb.2 hr⟩
    · cases hs
  | edit i d =>
    simp only [system, step] at hs
    split at hs
    · rename_i hc
      obtain ⟨k', hk, rfl⟩ := Option.map_eq_some_iff.mp hs
      cases hk
      exact ⟨m, _, inv_edit m held s h i d ((held_of_holding m held s h i).mp hc.2)⟩
    · cases hs
  | log_write i =>
    simp only [system, step] at hs
    split at hs
    · rename_i hc
      obtain ⟨k', hk, rfl⟩ := Option.map_eq_some_iff.mp hs
      obtain ⟨a, hr⟩ := done_eq_some _ _ hk
      have hi := (held_of_holding m held s h i).mp hc.2
      have hspec := log_write_spec s.k i (fun _ k' => k' = logged s.k i ∧ s.k.log.full = false) (fun _ _ => True)
        (fun hf _ => ⟨rfl, hf⟩) (fun _ => trivial) (fun _ => trivial)
      obtain ⟨rfl, hfull⟩ := wp_ok _ _ _ _ _ _ hspec hr
      exact ⟨_, _, inv_log_write m held s h i hi hc.1 hfull⟩
    · cases hs
  | brelse i =>
    simp only [system, step] at hs
    split at hs
    · rename_i hc
      obtain ⟨k', hk, rfl⟩ := Option.map_eq_some_iff.mp hs
      obtain ⟨a, hr⟩ := done_eq_some _ _ hk
      have hi := (held_of_holding m held s h i).mp hc.1
      have := wp_ok _ _ _ _ _ _ (brelse_spec _ s.k h.coh i hi (fun _ _ => True)) hr
      subst this
      exact ⟨m, _, inv_brelse m held s h i hi hc.2⟩
    · cases hs
  | end_op =>
    simp only [system, step] at hs
    split at hs
    · rename_i hc
      obtain ⟨k', hk, rfl⟩ := Option.map_eq_some_iff.mp hs
      obtain ⟨a, hr⟩ := done_eq_some _ _ hk
      have hheld := held_empty m held s h hc.2
      obtain ⟨m', h'⟩ := wp_ok _ _ _ _ _ _ (end_op_spec m held s h hc.1 hheld) hr
      exact ⟨m', ∅, h'⟩
    · cases hs

theorem inv_of_reach (s : Client) (h : system.Reach s) : Inv s := system.reach_inv Inv inv_init inv_step s h

def booted : Client where
  k := reboot (oneLogged sevens) fun _ => Block.zero
  spec _ := Block.zero
  inOp := false
  edited := ∅

theorem booted_init : Booted booted where
  bcache := rfl
  evicted := rfl
  n := rfl
  outstanding := rfl
  committing := rfl
  dev := rfl
  area := by decide
  size := by decide
  disksize := by decide
  spec := rfl
  inOp := rfl
  edited := rfl

end Client

end Xv6
