import Xv6.Log.Commit

/-!
# Crashes during `commit` and recovery

A crash keeps a first part of the block writes. A reboot starts with an empty cache on the disk
that is left.
-/

open Lib Lib.Cmd Function

namespace Xv6

theorem headBlock_empty (lh : LogHeader) (hb : Block) : headBlock { lh with n := 0 } hb = hb.setWord 0 0 := rfl

theorem headCount_of_word (d : Block) (n : Nat) (h : d.word 0 = n) (hn : n < 2 ^ 31) : headCount d = n := by
  unfold headCount
  rw [h, if_pos hn]

theorem headCount_clear (hb : Block) : headCount (hb.setWord 0 0) = 0 :=
  headCount_of_word _ 0 (Block.word_setWord_self hb 0 0 (by decide) (by decide)) (by decide)

theorem headBlock_loop (block : Nat → Nat) (hb : Block) (n j : Nat) (hj : 4 * j + 4 ≤ BSIZE) (hn : n ≤ LOGSIZE)
    (hw : ∀ i < n, block i < 2 ^ 32) :
    ((List.range n).foldl (fun hb i => hb.setWord (i + 1) (block i)) hb).word j =
      if 0 < j ∧ j ≤ n then block (j - 1) else hb.word j := by
  induction n with
  | zero => rw [if_neg (by omega)]; rfl
  | succ n ih =>
    rw [List.range_succ, List.foldl_append, List.foldl_cons, List.foldl_nil]
    by_cases hjn : j = n + 1
    · subst hjn
      rw [Block.word_setWord_self _ _ _ hj (hw n (by omega)), if_pos (by omega), Nat.add_sub_cancel]
    · rw [Block.word_setWord_ne _ _ _ _ hj hjn, ih (by omega) (fun i hi => hw i (by omega))]
      congr 1
      simp only [eq_iff_iff]
      omega

section

variable (log : Log) (disksize : Nat) (hl : Layout log disksize) (hb : Block)
include hl

theorem block_lt (i : Nat) (hi : i < log.lh.n) : log.lh.block i < 2 ^ 32 := by
  have h1 := (hl.home i hi).1
  have h2 := hl.size
  have : 2 ^ 32 / BSIZE = 2 ^ 23 := by decide
  omega

theorem headCount_headBlock : headCount (headBlock log.lh hb) = log.lh.n := by
  have hn := hl.slots
  have hlog : LOGSIZE = 30 := rfl
  apply headCount_of_word _ _ _ (by omega)
  rw [headBlock, headBlock_loop _ _ _ 0 (by decide) hn (block_lt log disksize hl), if_neg (by omega)]
  exact Block.word_setWord_self hb 0 _ (by decide) (by omega)

theorem word_headBlock (t : Nat) (ht : t < log.lh.n) : (headBlock log.lh hb).word (t + 1) = log.lh.block t := by
  have hn := hl.slots
  have hlog : LOGSIZE = 30 := rfl
  have hsize : BSIZE = 512 := rfl
  rw [headBlock, headBlock_loop _ _ _ (t + 1) (by omega) hn (block_lt log disksize hl), if_pos (by omega),
    Nat.add_sub_cancel]

end

def Log.outside (log : Log) (b : Nat) : Prop := b < log.start ∨ log.start + log.size ≤ b

instance (log : Log) (b : Nat) : Decidable (log.outside b) := inferInstanceAs (Decidable (_ ∨ _))

structure Clean (log : Log) (T d : Nat → Block) : Prop where
  count : headCount (d log.start) = 0
  home : ∀ b, log.outside b → d b = T b

structure Logged (log : Log) (T d : Nat → Block) : Prop where
  count : headCount (d log.start) = log.lh.n
  blocks : ∀ t < log.lh.n, (d log.start).word (t + 1) = log.lh.block t
  copies : ∀ t < log.lh.n, d (log.slot t) = T (log.lh.block t)
  home : ∀ b, log.outside b → b ∉ log.lh.blocks → d b = T b

def Recoverable (log : Log) (T d : Nat → Block) : Prop := Clean log T d ∨ Logged log T d

def finishWrites (log : Log) (T : Nat → Block) (hb : Block) : List (Nat × Block) :=
  copyWrites log.lh.block log.lh.block T log.lh.n ++ [(log.start, hb.setWord 0 0)]

theorem take_concat {α : Type} (xs : List α) (x : α) (cut : Nat) :
    (xs ++ [x]).take cut = xs.take cut ∨ (xs ++ [x]).take cut = xs ++ [x] := by
  rcases Nat.lt_or_ge xs.length cut with h | h
  · right; exact List.take_of_length_le (by simp; omega)
  · left; exact List.take_append_of_le_length h

theorem clean_start (log : Log) (T d : Nat → Block) (hs : 0 < log.size) (h : Clean log T d) (hb : Block) :
    Clean log T (update d log.start (hb.setWord 0 0)) where
  count := by rw [update_self]; exact headCount_clear hb
  home := by
    intro b hb
    have : b ≠ log.start := by
      rcases hb with hb | hb <;> omega
    rw [update_of_ne this]
    exact h.home b hb

section

variable (log : Log) (disksize : Nat) (hl : Layout log disksize) (T d : Nat → Block) (h : Logged log T d)
include hl h

theorem logged_writes (ws : List (Nat × Block))
    (hws : ∀ w ∈ ws, w ∈ copyWrites log.lh.block log.lh.block T log.lh.n) : Logged log T (applyW d ws) := by
  have hroom := hl.room
  have hsame : ∀ b, ¬ log.outside b → applyW d ws b = d b := by
    intro b hb
    apply applyW_of_not_mem
    intro w hw
    obtain ⟨t, ht, rfl⟩ := (mem_copyWrites _ _ _ _ _).mp (hws w hw)
    have hout := (hl.home t ht).2
    rintro rfl
    exact hb hout
  have hstart : ¬ log.outside log.start := by unfold Log.outside; omega
  refine ⟨?_, ?_, ?_, ?_⟩
  · rw [hsame _ hstart]; exact h.count
  · rw [hsame _ hstart]; exact h.blocks
  · intro t ht
    rw [hsame _ (by unfold Log.outside Log.slot; omega)]
    exact h.copies t ht
  · intro b hb hnot
    rw [applyW_of_not_mem]
    · exact h.home b hb hnot
    · intro w hw
      obtain ⟨t, ht, rfl⟩ := (mem_copyWrites _ _ _ _ _).mp (hws w hw)
      rintro rfl
      exact hnot ((LogHeader.mem_blocks _ _).mpr ⟨t, ht, rfl⟩)

theorem logged_finish (hb : Block) : Clean log T (applyW d (finishWrites log T hb)) := by
  have hroom := hl.room
  rw [finishWrites, applyW_concat]
  refine ⟨by rw [update_self]; exact headCount_clear hb, ?_⟩
  intro b hout
  have : b ≠ log.start := by
    rcases hout with hb | hb <;> omega
  rw [update_of_ne this]
  apply applyW_eq
  · intro w hw hx
    obtain ⟨t, ht, rfl⟩ := (mem_copyWrites _ _ _ _ _).mp hw
    rw [← hx]
  · by_cases hm : b ∈ log.lh.blocks
    · right
      obtain ⟨t, ht, rfl⟩ := (LogHeader.mem_blocks _ _).mp hm
      exact ⟨_, (mem_copyWrites _ _ _ _ _).mpr ⟨t, ht, rfl⟩, rfl⟩
    · left; exact h.home b hout hm

theorem logged_cut (hb : Block) (cut : Nat) : Recoverable log T (applyW d ((finishWrites log T hb).take cut)) := by
  rcases take_concat (copyWrites log.lh.block log.lh.block T log.lh.n) (log.start, hb.setWord 0 0) cut with he | he
  · right
    rw [finishWrites, he]
    exact logged_writes log disksize hl T d h _ (fun w hw => List.mem_of_mem_take hw)
  · left
    rw [finishWrites, he]
    exact logged_finish log disksize hl T d h hb

end

def reboot (k : Kernel) (d : Nat → Block) : Kernel where
  bcache := Bcache.boot.binit
  log := { k.log with outstanding := 0, committing := false, lh := { n := 0, block := fun _ => 0 } }
  disk := d
  disksize := k.disksize
  pid := k.pid
  writes := []
  evicted := []

theorem boot_coh (k : Kernel) (hc : k.bcache = Bcache.boot.binit) (he : k.evicted = []) : Coh (quiet k.disk ∅) k := by
  have hbuf : ∀ i, k.buf i = Bcache.boot.buf i := by
    intro i
    simp [Kernel.buf, hc, Bcache.binit, Bcache.boot]
  refine ⟨by rw [hc]; exact Cache.binit_linked _, ?_, ?_, by simp [quiet], fun b _ => rfl, by simp [he]⟩
  · intro i j hi
    exact absurd (by rw [show k.bcache.buf i = k.buf i from rfl, hbuf]; rfl) hi
  · intro i
    rw [hbuf]
    refine ⟨rfl, rfl, by simp [quiet], ?_, ?_⟩
    · intro _ hd; cases hd
    · intro hd; cases hd

def loaded (k : Kernel) (d : Nat → Block) : Log := (reboot k d).log.load (d (reboot k d).log.start)

theorem loaded_n (k : Kernel) (d : Nat → Block) : (loaded k d).lh.n = headCount (d k.log.start) := rfl

theorem loaded_start (k : Kernel) (d : Nat → Block) : (loaded k d).start = k.log.start := rfl

theorem loaded_size (k : Kernel) (d : Nat → Block) : (loaded k d).size = k.log.size := rfl

theorem recover_run (k : Kernel) (d : Nat → Block) (hl : Layout (loaded k d) k.disksize) :
    ∃ k', recover_from_log (reboot k d) = (.ok (), k') ∧ k'.writes = installWrites (loaded k d) d ∧
      k'.disk = applyW d (installWrites (loaded k d) d) := by
  have hspec := recover_from_log_spec d (reboot k d) (boot_coh (reboot k d) rfl rfl) hl (fun _ _ => False)
  rw [← loaded] at hspec
  obtain ⟨_, k', he, hc, hw⟩ := wp_total _ _ _ hspec
  refine ⟨k', he, hw, ?_⟩
  funext b
  rw [hc.disk b (by simp [quiet]), quiet]

section

variable (k : Kernel) (T d : Nat → Block)

theorem loaded_block (h : Logged k.log T d) (t : Nat) (ht : t < k.log.lh.n) :
    (loaded k d).lh.block t = k.log.lh.block t := by
  have hstart : (reboot k d).log.start = k.log.start := rfl
  simp only [loaded, Log.load, LogHeader.load]
  rw [hstart, h.count, if_pos ht, h.blocks t ht]

theorem clean_installWrites (h : Clean k.log T d) :
    installWrites (loaded k d) d = [(k.log.start, (d k.log.start).setWord 0 0)] := by
  simp only [installWrites, loaded_n, h.count, headBlock_empty, loaded_start]
  rfl

theorem logged_installWrites (h : Logged k.log T d) :
    installWrites (loaded k d) d = finishWrites k.log T (d k.log.start) := by
  have hcopy : copyWrites (loaded k d).slot (loaded k d).lh.block d k.log.lh.n =
      copyWrites k.log.lh.block k.log.lh.block T k.log.lh.n := by
    apply List.map_congr_left
    intro t ht
    have ht := List.mem_range.mp ht
    rw [loaded_block k T d h t ht, Log.slot, loaded_start, ← h.copies t ht, Log.slot]
  simp only [installWrites, finishWrites, loaded_n, h.count, headBlock_empty, loaded_start, hcopy]

variable (hl : Layout k.log k.disksize)
include hl

theorem clean_layout (h : Clean k.log T d) : Layout (loaded k d) k.disksize where
  dev := hl.dev
  room := by
    have := hl.room
    rw [loaded_n, loaded_size, h.count]; omega
  slots := by
    rw [loaded_n, h.count]; omega
  area := hl.area
  home := by
    intro t ht
    rw [loaded_n, h.count] at ht
    omega
  distinct := by
    intro t ht
    rw [loaded_n, h.count] at ht
    omega
  size := hl.size

theorem logged_layout (h : Logged k.log T d) : Layout (loaded k d) k.disksize where
  dev := hl.dev
  room := by
    rw [loaded_n, loaded_size, h.count]; exact hl.room
  slots := by
    rw [loaded_n, h.count]; exact hl.slots
  area := hl.area
  home := by
    intro t ht
    rw [loaded_n, h.count] at ht
    rw [loaded_block k T d h t ht]
    exact hl.home t ht
  distinct := by
    intro i hi t ht
    rw [loaded_n, h.count] at hi ht
    rw [loaded_block k T d h i hi, loaded_block k T d h t ht]
    exact hl.distinct i hi t ht
  size := hl.size

theorem recover_spec (h : Recoverable k.log T d) :
    ∃ k', recover_from_log (reboot k d) = (.ok (), k') ∧ Clean k.log T k'.disk ∧
      ∀ cut, Recoverable k.log T (applyW d (k'.writes.take cut)) := by
  have hs : 0 < k.log.size := by have := hl.room; omega
  rcases h with h | h
  · obtain ⟨k', he, hw, hd⟩ := recover_run k d (clean_layout k T d hl h)
    rw [clean_installWrites k T d h] at hw hd
    refine ⟨k', he, by rw [hd]; exact clean_start k.log T d hs h _, fun cut => ?_⟩
    rw [hw]
    left
    rcases take_concat [] (k.log.start, (d k.log.start).setWord 0 0) cut with hc | hc
    · rw [← List.nil_append [_], hc, List.take_nil]; exact h
    · rw [← List.nil_append [_], hc]; exact clean_start k.log T d hs h _
  · obtain ⟨k', he, hw, hd⟩ := recover_run k d (logged_layout k T d hl h)
    rw [logged_installWrites k T d h] at hw hd
    exact ⟨k', he, by rw [hd]; exact logged_finish k.log k.disksize hl T d h _,
      fun cut => by rw [hw]; exact logged_cut k.log k.disksize hl T d h _ cut⟩

end

def reboots (k : Kernel) (d : Nat → Block) (cuts : List Nat) : Nat → Block :=
  cuts.foldl (fun d cut => applyW d ((recover_from_log (reboot k d)).2.writes.take cut)) d

theorem reboots_recoverable (k : Kernel) (hl : Layout k.log k.disksize) (T d : Nat → Block)
    (h : Recoverable k.log T d) (cuts : List Nat) : Recoverable k.log T (reboots k d cuts) := by
  induction cuts generalizing d with
  | nil => exact h
  | cons cut cuts ih =>
    apply ih
    obtain ⟨k', he, -, hcut⟩ := recover_spec k T d hl h
    dsimp only
    rw [he]
    exact hcut cut

/-- The machine when `end_op` calls `commit`: the cache shows `m`, and the blocks in the log are
the ones whose contents are not on disk yet. -/
structure Ready (m : Nat → Block) (k : Kernel) : Prop where
  coh : Coh (quiet m k.log.lh.blocks.toFinset) k
  layout : Layout k.log k.disksize
  count : headCount (k.disk k.log.start) = 0
  writes : k.writes = []

theorem commit_writes (m : Nat → Block) (k : Kernel) (h : Ready m k) :
    (commit k).2.writes <+: commitWrites k.log m := by
  rcases Nat.eq_zero_or_pos k.log.lh.n with hn | hn
  · rw [commit_empty k hn, h.writes]
    exact List.nil_prefix
  · have hspec := commit_spec m k h.coh h.layout hn
    unfold wp at hspec
    split at hspec
    · rename_i a k' he
      rw [he, hspec.writes, h.writes, List.nil_append]
    · rename_i e k' he
      obtain ⟨-, vs, hvs, hw⟩ := hspec
      rw [he, hw, h.writes, List.nil_append]
      exact hvs

theorem commit_complete (m : Nat → Block) (k : Kernel) (h : Ready m k) (hn : 0 < k.log.lh.n) (hb : k.log.lh.n < NBUF) :
    ∃ k', commit k = (.ok (), k') ∧ k'.writes = commitWrites k.log m := by
  have hspec := wp_mono _ _ _ _ (fun _ _ => False) _ (commit_spec m k h.coh h.layout hn) (fun _ _ hq => hq)
    (fun _ _ he => by have := he.1; omega)
  obtain ⟨_, k', he, hc⟩ := wp_total _ _ _ hspec
  exact ⟨k', he, by rw [hc.writes, h.writes, List.nil_append]⟩

section

variable (m : Nat → Block) (k : Kernel) (h : Ready m k)
include h

theorem clean_before_head (ws : List (Nat × Block))
    (hws : ∀ w ∈ ws, w ∈ copyWrites k.log.lh.block k.log.slot m k.log.lh.n) :
    Clean k.log k.disk (applyW k.disk ws) := by
  have hroom := h.layout.room
  have hsame : ∀ b, b = k.log.start ∨ k.log.outside b → applyW k.disk ws b = k.disk b := by
    intro b hb
    apply applyW_of_not_mem
    intro w hw
    obtain ⟨t, ht, rfl⟩ := (mem_copyWrites _ _ _ _ _).mp (hws w hw)
    unfold Log.slot
    rcases hb with hb | hb | hb <;> omega
  exact ⟨by rw [hsame _ (Or.inl rfl)]; exact h.count, fun b hb => hsame b (Or.inr hb)⟩

theorem logged_at_head :
    Logged k.log m (applyW k.disk (copyWrites k.log.lh.block k.log.slot m k.log.lh.n ++
      [(k.log.start, headBlock k.log.lh (m k.log.start))])) := by
  have hroom := h.layout.room
  rw [applyW_concat]
  refine ⟨?_, ?_, ?_, ?_⟩
  · rw [update_self]; exact headCount_headBlock k.log _ h.layout _
  · intro t ht
    rw [update_self]; exact word_headBlock k.log _ h.layout _ t ht
  · intro t ht
    rw [update_of_ne (slot_ne_start k.log t)]
    exact applyW_slot k.log k.disk m _ t ht
  · intro b hb hnot
    have hne : b ≠ k.log.start := by rcases hb with hb | hb <;> omega
    rw [update_of_ne hne, (clean_before_head m k h _ (fun w hw => hw)).home b hb]
    exact h.coh.disk b (by simpa [quiet] using hnot)

theorem commit_cut (ws : List (Nat × Block)) (hws : ws <+: commitWrites k.log m) :
    (¬ (∃ hb, (k.log.start, hb) ∈ ws) ∧ Recoverable k.log k.disk (applyW k.disk ws)) ∨
    (∃ hb, (k.log.start, hb) ∈ ws) ∧ Recoverable k.log m (applyW k.disk ws) := by
  let L := copyWrites k.log.lh.block k.log.slot m k.log.lh.n
  let hb := headBlock k.log.lh (m k.log.start)
  have hall : commitWrites k.log m = L ++ (k.log.start, hb) :: finishWrites k.log m hb := rfl
  rw [hall] at hws
  have hlen := List.prefix_iff_eq_take.mp hws
  rw [List.take_append] at hlen
  rcases Nat.lt_or_ge L.length ws.length with hlt | hge
  · right
    obtain ⟨c, hc⟩ := Nat.exists_eq_add_of_lt hlt
    rw [hc, List.take_of_length_le (by omega), show L.length + c + 1 - L.length = c + 1 by omega,
      List.take_succ_cons] at hlen
    rw [hlen]
    refine ⟨⟨hb, by simp⟩, ?_⟩
    rw [List.append_cons, applyW_append]
    exact logged_cut k.log k.disksize h.layout m _ (logged_at_head m k h) hb c
  · left
    rw [Nat.sub_eq_zero_of_le hge, List.take_zero, List.append_nil] at hlen
    have hmem : ∀ w ∈ ws, w ∈ L := by
      intro w hw
      rw [hlen] at hw
      exact List.mem_of_mem_take hw
    refine ⟨?_, Or.inl (clean_before_head m k h ws hmem)⟩
    rintro ⟨d, hd⟩
    obtain ⟨t, ht, he⟩ := (mem_copyWrites _ _ _ _ _).mp (hmem _ hd)
    exact slot_ne_start k.log t (congrArg Prod.fst he).symm

end

def commitCut (k : Kernel) (cut : Nat) : List (Nat × Block) := (commit k).2.writes.take cut

def recovered (k : Kernel) (cut : Nat) (cuts : List Nat) : Except Stop Unit × Kernel :=
  recover_from_log (reboot k (reboots k (applyW k.disk (commitCut k cut)) cuts))

def HeadReached (k : Kernel) (cut : Nat) : Prop := ∃ hb, (k.log.start, hb) ∈ commitCut k cut

/-- **A crash never splits a transaction.** If the header reached the disk, all logged blocks hold what
the cache held, and if it did not, what the disk held before. Nothing else outside the log has
changed, and the log is empty. -/
theorem commit_crash_atomic (m : Nat → Block) (k : Kernel) (h : Ready m k) (cut : Nat) (cuts : List Nat) :
    (recovered k cut cuts).1 = .ok () ∧
    (HeadReached k cut → ∀ b ∈ k.log.lh.blocks, (recovered k cut cuts).2.disk b = m b) ∧
    (¬ HeadReached k cut → ∀ b ∈ k.log.lh.blocks, (recovered k cut cuts).2.disk b = k.disk b) ∧
    (∀ b, k.log.outside b → b ∉ k.log.lh.blocks → (recovered k cut cuts).2.disk b = k.disk b) ∧
    headCount ((recovered k cut cuts).2.disk k.log.start) = 0 := by
  have hws : commitCut k cut <+: commitWrites k.log m := (List.take_prefix _ _).trans (commit_writes m k h)
  have hout : ∀ b ∈ k.log.lh.blocks, k.log.outside b := by
    intro b hb
    exact blocks_outside k.log _ h.layout b (List.mem_toFinset.mpr hb)
  have hrun : ∀ T, Recoverable k.log T (applyW k.disk (commitCut k cut)) →
      (recovered k cut cuts).1 = .ok () ∧ Clean k.log T (recovered k cut cuts).2.disk := by
    intro T hT
    obtain ⟨k', he, hc, -⟩ := recover_spec k T _ h.layout (reboots_recoverable k h.layout T _ hT cuts)
    rw [recovered, he]
    exact ⟨rfl, hc⟩
  rcases commit_cut m k h _ hws with ⟨hno, hT⟩ | ⟨hhead, hT⟩
  · obtain ⟨hok, hc⟩ := hrun _ hT
    exact ⟨hok, fun hyes => absurd hyes hno, fun _ b hb => hc.home b (hout b hb), fun b hb _ => hc.home b hb, hc.count⟩
  · obtain ⟨hok, hc⟩ := hrun _ hT
    refine ⟨hok, fun _ b hb => hc.home b (hout b hb), fun hno => absurd hhead hno, fun b hb hnot => ?_, hc.count⟩
    rw [hc.home b hb, h.coh.disk b (by simpa [quiet] using hnot)]
    rfl

def loggedBuf (d : Block) : Buf :=
  { valid := true, dirty := true, dev := ROOTDEV, blockno := 40, lock := ⟨false, 0⟩, refcnt := 0, data := d }

def firstBuf : Fin NBUF := ⟨0, by decide⟩

def oneLogged (d : Block) : Kernel where
  bcache := Bcache.boot.binit.setBuf firstBuf fun _ => loggedBuf d
  log := { start := 2, size := 30, outstanding := 0, committing := true, dev := ROOTDEV,
           lh := { n := 1, block := fun _ => 40 } }
  disk _ := Block.zero
  disksize := 1000
  pid := 1
  writes := []
  evicted := []

theorem oneLogged_first (d : Block) : (oneLogged d).buf firstBuf = loggedBuf d := by simp [oneLogged, Kernel.buf]

theorem oneLogged_other (d : Block) (i : Fin NBUF) (hi : i ≠ firstBuf) : (oneLogged d).buf i = Bcache.boot.buf i := by
  simp [oneLogged, Kernel.buf, hi, Bcache.binit, Bcache.boot]

theorem oneLogged_coh (d : Block) : Coh (quiet (update (fun _ => Block.zero) 40 d) {40}) (oneLogged d) := by
  have hdev : ∀ i, ((oneLogged d).buf i).dev ≠ 0 → i = firstBuf := by
    intro i hi
    by_contra hne
    rw [oneLogged_other d i hne] at hi
    exact hi rfl
  refine ⟨Cache.binit_linked _, ?_, ?_, ?_, ?_, by simp [oneLogged]⟩
  · intro i j hi hij
    rw [hdev i hi, hdev j (fun hj => hi (hij.1.trans hj))]
  · intro i
    by_cases hi : i = firstBuf
    · rw [hi, oneLogged_first]
      exact ⟨rfl, rfl, by simp [quiet], fun _ _ _ => by simp [quiet, loggedBuf], fun _ => ⟨rfl, rfl,
        by simp [quiet, loggedBuf]⟩⟩
    · rw [oneLogged_other d i hi]
      refine ⟨rfl, rfl, by simp [quiet], fun _ hd => ?_, fun hd => ?_⟩
      · cases hd
      · cases hd
  · intro b hb
    have : b = 40 := by simpa [quiet] using hb
    exact ⟨firstBuf, by rw [oneLogged_first, this]; exact ⟨rfl, rfl, rfl⟩⟩
  · intro b hb
    have : b ≠ 40 := by simpa [quiet] using hb
    simp [oneLogged, quiet, this]

theorem oneLogged_ready (d : Block) : Ready (update (fun _ => Block.zero) 40 d) (oneLogged d) where
  coh := oneLogged_coh d
  layout := by
    refine ⟨rfl, ?_, ?_, ?_, ?_, ?_, ?_⟩ <;> simp [oneLogged, LOGSIZE, MAXOPBLOCKS, BSIZE]
  count := headCount_of_word Block.zero 0 (by decide) (by decide)
  writes := rfl

def sevens : Block := fun _ => 7

/-- A crash after three of the four writes of that commit, then a recovery cut before its first write. -/
theorem commit_crash_atomic_oneLogged :
    HeadReached (oneLogged sevens) 3 ∧ (recovered (oneLogged sevens) 3 [0]).1 = .ok () ∧
    (recovered (oneLogged sevens) 3 [0]).2.disk 40 = sevens := by
  have hk := oneLogged_ready sevens
  have hhead : HeadReached (oneLogged sevens) 3 := by
    obtain ⟨k', he, hw⟩ := commit_complete _ _ hk (by simp [oneLogged]) (by simp [oneLogged, NBUF, MAXOPBLOCKS])
    have hn : (oneLogged sevens).log.lh.n = 1 := rfl
    simp only [HeadReached, commitCut, he, hw, commitWrites, copyWrites, hn, List.range_one, List.map_cons,
      List.map_nil, List.cons_append, List.nil_append, List.take_succ_cons]
    exact ⟨_, List.mem_cons_of_mem _ List.mem_cons_self⟩
  have hb : 40 ∈ (oneLogged sevens).log.lh.blocks := by simp [oneLogged, LogHeader.blocks]
  obtain ⟨hok, hnew, -⟩ := commit_crash_atomic _ _ hk 3 [0]
  refine ⟨hhead, hok, ?_⟩
  rw [hnew hhead 40 hb, update_self]

end Xv6
