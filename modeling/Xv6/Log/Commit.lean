import Xv6.Bio.Coherent
import Xv6.Log.Disk

/-!
# What `commit` and `recover_from_log` write

Both run while the process holds no buffer.
-/

open Lib Lib.Cmd Function

namespace Xv6

def quiet (m : Nat → Block) (pend : Finset Nat) : View := { m := m, pend := pend, held := ∅, mod := ∅ }

variable (log : Log) (src dst : Nat → Nat) (m : Nat → Block) (pend : Finset Nat) (v : View) (k : Kernel)

theorem view_copied (x y : Fin NBUF) (b : Nat) (d : Block) (v : View)
    (hm : v.m = m) (hp : v.pend = pend) (hx : ∀ i, i ∈ v.held ↔ i = x ∨ i = y) (hv : v.mod = ∅) :
    (((v.edit y).store y b d).unlock x).unlock y = quiet (update m b d) (pend.erase b) := by
  obtain ⟨m', p', held, mod⟩ := v
  subst hm hp hv
  simp only [View.edit, View.store, View.unlock, quiet, View.mk.injEq, true_and]
  refine ⟨?_, by simp⟩
  ext i
  have := hx i
  simp only [Finset.mem_erase, Finset.notMem_empty, iff_false]
  tauto

theorem copyBuf_spec (h : Coh v k) (x y : Fin NBUF)
    (a b : Nat) (hm : v.m = m) (hp : v.pend = pend) (hv : v.mod = ∅) (hheld : ∀ i, i ∈ v.held ↔ i = x ∨ i = y)
    (hxy : x ≠ y) (hx : Got v k x a) (hy : Got v k y b) (hval : (k.buf x).valid = true) (hb : b < k.disksize)
    (E : Stop → Kernel → Prop) :
    wp (copyBuf x y) (fun _ k' => Coh (quiet (update m b (m a)) (pend.erase b)) k' ∧ Wrote [(b, m a)] k k')
      E k := by
  have hdata : (k.buf x).data = m a := by
    have := (h.bufs x).data (by simp [hv]) hx.dev hval
    rwa [hx.blockno, hm] at this
  let k1 := k.setBuf y fun b => { b with data := (k.buf x).data }
  have h1 : Coh (v.edit y) k1 := setData_coh v k h y hy.held fun _ => (k.buf x).data
  have hy1 : Got (v.edit y) k1 y b := ⟨hy.held, by simpa [k1] using hy.dev, by simpa [k1] using hy.blockno⟩
  have hd1 : (k1.buf y).data = m a := by simp [k1, hdata]
  have h2 := stored_coh (v.edit y) k1 h1 y b hy1
  have h3 := released_coh _ _ h2 x hx.held (by simp [View.store, View.edit, hv])
  have h4 := released_coh _ _ h3 y (Finset.mem_erase.mpr ⟨Ne.symm hxy, hy.held⟩)
    (by simp [View.unlock, View.store, View.edit])
  rw [hd1, view_copied m pend x y b (m a) v hm hp hheld hv] at h4
  unfold copyBuf setData
  simp only [wp_bind, wp_get, wp_modify]
  apply wp_mono _ _ _ _ _ _ (bwrite_spec (v.edit y) k1 h1 y b hy1 hb E) _ (fun _ _ he => he)
  rintro _ _ rfl
  apply wp_mono _ _ _ _ _ _ (brelse_spec _ _ h2 x hx.held E) _ (fun _ _ he => he)
  rintro _ _ rfl
  apply wp_mono _ _ _ _ _ _ (brelse_spec _ _ h3 y (Finset.mem_erase.mpr ⟨Ne.symm hxy, hy.held⟩) E) _ (fun _ _ he => he)
  rintro _ _ rfl
  refine ⟨h4, ?_⟩
  have hw : Wrote [(b, m a)] k1 (stored k1 y) := by
    have := stored_wrote k1 y
    rwa [hy1.blockno, hd1] at this
  have hk : Wrote [] k k1 := ⟨by simp [k1, Kernel.setBuf], rfl, rfl, rfl, rfl⟩
  exact wrote_trans [] [(b, m a)] _ _ _ hk (wrote_trans [(b, m a)] [] _ _ _ hw
    (wrote_trans [] [] _ _ _ (released_wrote _ x) (released_wrote _ y)))

/-- There may be no buffer left for the log block and block `b`. -/
def Crowded (pend : Finset Nat) (b : Nat) : Prop := NBUF ≤ pend.card ∨ b ∉ pend ∧ NBUF ≤ pend.card + 1

theorem bread_two_spec (h : Coh (quiet m pend) k) (a b : Nat)
    (hne : a ≠ b) (ha : a < k.disksize) (hb : b < k.disksize) (f : Fin NBUF → Fin NBUF → M Unit)
    (Q : Unit → Kernel → Prop) (E : Stop → Kernel → Prop)
    (hq : ∀ i j k', let v := ((quiet m pend).lock i).lock j
      i ≠ j → Coh v k' → Got v k' i a → Got v k' j b → (k'.buf i).valid = true → (k'.buf j).valid = true →
      Wrote [] k k' → wp (f i j) Q E k')
    (he : ∀ e k', Crowded pend b → Wrote [] k k' → E e k') :
    wp (do let i ← bread ROOTDEV a; let j ← bread ROOTDEV b; f i j) Q E k := by
  rw [wp_bind]
  apply wp_mono _ _ _ _ _ _ (bread_spec _ k h a)
  · intro i k1 hi
    rw [wp_bind]
    apply wp_mono _ _ _ _ _ _ (bread_spec _ k1 hi.coh b)
    · intro j k2 hj
      have hij : i ≠ j := fun hij => hj.fresh (by simp [← hij, View.lock])
      have hsame := hj.other i hij
      apply hq i j k2 hij hj.coh _ hj.got _ hj.valid (wrote_trans [] [] k k1 k2 hi.wrote hj.wrote)
      · exact ⟨Finset.mem_insert_of_mem hi.got.held,
          by rw [hsame]; exact hi.got.dev, by rw [hsame]; exact hi.got.blockno⟩
      · rw [hsame]; exact hi.valid
    · rintro e k2 ⟨hs, hw⟩
      apply he e k2 _ (wrote_trans [] [] k k1 k2 hi.wrote hw)
      cases hs with
      | full hp hr => right; exact ⟨hp, by simpa [quiet, View.lock] using hr⟩
      | self l hl =>
        -- The only locked buffer is the first block's.
        have hli : l = i := by simpa [quiet, View.lock] using hl.held
        subst hli
        exact absurd (hi.got.blockno.symm.trans hl.blockno) hne
      | range hr => rw [hi.wrote.disksize] at hr; omega
  · rintro e k1 ⟨hs, hw⟩
    apply he e k1 _ hw
    cases hs with
    | full hp hr => left; simpa [quiet] using hr
    | self l hl => exact absurd hl.held (by simp [quiet])
    | range hr => omega

theorem lock_lock_held (i j l : Fin NBUF) :
    l ∈ (((quiet m pend).lock i).lock j).held ↔ l = j ∨ l = i := by
  simp [View.lock, quiet]

theorem copy_to_first_spec (h : Coh (quiet m pend) k) (a b : Nat)
    (hne : a ≠ b) (ha : a < k.disksize) (hb : b < k.disksize) :
    wp (do let i ← bread ROOTDEV a; let j ← bread ROOTDEV b; copyBuf j i)
      (fun _ k' => Coh (quiet (update m a (m b)) (pend.erase a)) k' ∧ Wrote [(a, m b)] k k')
      (fun _ k' => Crowded pend b ∧ Wrote [] k k') k := by
  apply bread_two_spec m pend k h a b hne ha hb _ _ _ _ (fun e k' hr hw => ⟨hr, hw⟩)
  intro i j k1 v hij hc hi hj hvi hvj hw
  refine wp_mono _ _ _ _ _ _ (copyBuf_spec m pend v k1 hc j i b a rfl rfl rfl (lock_lock_held m pend i j)
    (Ne.symm hij) hj hi hvj (by rw [hw.disksize]; exact ha) _) ?_ (fun _ _ he => he)
  rintro _ k2 ⟨hc2, hw2⟩
  exact ⟨hc2, wrote_trans [] _ k k1 k2 hw hw2⟩

theorem copy_to_second_spec (h : Coh (quiet m pend) k) (a b : Nat)
    (hne : a ≠ b) (ha : a < k.disksize) (hb : b < k.disksize) :
    wp (do let i ← bread ROOTDEV a; let j ← bread ROOTDEV b; copyBuf i j)
      (fun _ k' => Coh (quiet (update m b (m a)) (pend.erase b)) k' ∧ Wrote [(b, m a)] k k')
      (fun _ k' => Crowded pend b ∧ Wrote [] k k') k := by
  apply bread_two_spec m pend k h a b hne ha hb _ _ _ _ (fun e k' hr hw => ⟨hr, hw⟩)
  intro i j k1 v hij hc hi hj hvi hvj hw
  refine wp_mono _ _ _ _ _ _ (copyBuf_spec m pend v k1 hc i j a b rfl rfl rfl
    (fun l => (lock_lock_held m pend i j l).trans or_comm) hij hi hj hvi (by rw [hw.disksize]; exact hb) _)
    ?_ (fun _ _ he => he)
  rintro _ k2 ⟨hc2, hw2⟩
  exact ⟨hc2, wrote_trans [] _ k k1 k2 hw hw2⟩

def copyWrites (src dst : Nat → Nat) (m : Nat → Block) (n : Nat) : List (Nat × Block) :=
  (List.range n).map fun t => (dst t, m (src t))

theorem copyWrites_succ (n : Nat) :
    copyWrites src dst m (n + 1) = copyWrites src dst m n ++ [(dst n, m (src n))] := by
  simp [copyWrites, List.range_succ]

theorem mem_copyWrites (n : Nat) (w : Nat × Block) :
    w ∈ copyWrites src dst m n ↔ ∃ t < n, w = (dst t, m (src t)) := by
  simp [copyWrites, eq_comm]

def copied (dst : Nat → Nat) (n : Nat) : Finset Nat := (Finset.range n).image dst

theorem sdiff_copied_succ (dst : Nat → Nat) (pend : Finset Nat) (n : Nat) :
    (pend \ copied dst n).erase (dst n) = pend \ copied dst (n + 1) := by
  ext b
  simp only [copied, Finset.mem_erase, Finset.mem_sdiff, Finset.mem_image, Finset.mem_range]
  constructor
  · rintro ⟨hne, hb, hno⟩
    refine ⟨hb, ?_⟩
    rintro ⟨t, ht, rfl⟩
    rcases Nat.lt_succ_iff_lt_or_eq.mp ht with ht | rfl
    · exact hno ⟨t, ht, rfl⟩
    · exact hne rfl
  · rintro ⟨hb, hno⟩
    exact ⟨fun he => hno ⟨n, by omega, he.symm⟩, hb, fun ⟨t, ht, he⟩ => hno ⟨t, by omega, he⟩⟩

/-- State after `t` copies of a loop that copies block `src t` to block `dst t`. -/
structure CopyInv (src dst : Nat → Nat) (m : Nat → Block) (pend : Finset Nat) (k : Kernel) (t : Nat) (k' : Kernel) :
    Prop where
  coh : Coh (quiet (applyW m (copyWrites src dst m t)) (pend \ copied dst t)) k'
  wrote : Wrote (copyWrites src dst m t) k k'

theorem copy_loop_spec
    (h : Coh (quiet m pend) k) (n : Nat) (hd : ∀ i < n, ∀ t < n, dst i ≠ src t) (body : Nat → M Unit) (C : Prop)
    (hbody : ∀ t < n, ∀ m' pend' k', Coh (quiet m' pend') k' → pend' = pend \ copied dst t →
      k'.disksize = k.disksize → wp (body t)
        (fun _ k'' => Coh (quiet (update m' (dst t) (m' (src t))) (pend'.erase (dst t))) k'' ∧
          Wrote [(dst t, m' (src t))] k' k'')
        (fun _ k'' => C ∧ Wrote [] k' k'') k') :
    wp (forTo n body) (fun _ => CopyInv src dst m pend k n)
      (fun _ k' => C ∧ ∃ t ≤ n, Wrote (copyWrites src dst m t) k k') k := by
  apply wp_forTo n body (CopyInv src dst m pend k)
  · exact ⟨by simpa [copyWrites, copied] using h, by simpa [copyWrites] using wrote_nil k⟩
  · intro t ht k1 hI
    have hsrc : applyW m (copyWrites src dst m t) (src t) = m (src t) := by
      apply applyW_of_not_mem
      intro w hw
      obtain ⟨i, hi, rfl⟩ := (mem_copyWrites src dst m t w).mp hw
      exact hd i (by omega) t ht
    apply wp_mono _ _ _ _ _ _ (hbody t ht _ _ k1 hI.coh rfl hI.wrote.disksize)
    · rintro _ k2 ⟨hc, hw⟩
      rw [hsrc] at hc hw
      rw [sdiff_copied_succ, ← applyW_concat, ← copyWrites_succ] at hc
      refine ⟨hc, ?_⟩
      rw [copyWrites_succ]
      exact wrote_trans _ _ k k1 k2 hI.wrote hw
    · rintro _ k2 ⟨hC, hw⟩
      refine ⟨hC, t, by omega, ?_⟩
      simpa using wrote_trans _ _ k k1 k2 hI.wrote hw

structure Layout (log : Log) (disksize : Nat) : Prop where
  dev : log.dev = ROOTDEV
  room : log.lh.n < log.size
  slots : log.lh.n ≤ LOGSIZE
  area : log.start + log.size ≤ disksize
  home : ∀ t < log.lh.n, log.lh.block t < disksize ∧
    (log.lh.block t < log.start ∨ log.start + log.size ≤ log.lh.block t)
  distinct : ∀ i < log.lh.n, ∀ t < log.lh.n, log.lh.block i = log.lh.block t → i = t
  /-- `disksize` is a byte count below `2 ^ 32` divided by `BSIZE`. -/
  size : disksize ≤ 2 ^ 32 / BSIZE

def Log.slot (log : Log) (t : Nat) : Nat := log.start + t + 1

variable (h : Coh (quiet m pend) k)

section

include h

theorem write_log_spec (hl : Layout k.log k.disksize) (hp : ∀ b ∈ pend, b < k.log.start ∨ k.log.start + k.log.size ≤ b)
    (hpend : ∀ t < k.log.lh.n, k.log.lh.block t ∈ pend) :
    let ws := copyWrites k.log.lh.block k.log.slot m
    wp write_log (fun _ k' => Coh (quiet (applyW m (ws k.log.lh.n)) pend) k' ∧ Wrote (ws k.log.lh.n) k k')
      (fun _ k' => NBUF ≤ pend.card ∧ ∃ t ≤ k.log.lh.n, Wrote (ws t) k k') k := by
  have hroom := hl.room
  have harea := hl.area
  have hsd : ∀ t ≤ k.log.lh.n, pend \ copied k.log.slot t = pend := by
    intro t ht
    rw [Finset.sdiff_eq_self_iff_disjoint, Finset.disjoint_left]
    intro b hb hc
    obtain ⟨i, hi, rfl⟩ := Finset.mem_image.mp hc
    have := Finset.mem_range.mp hi
    have := hp _ hb
    unfold Log.slot at this
    omega
  unfold write_log
  rw [wp_bind, wp_get, hl.dev]
  refine wp_mono _ _ _ _ _ _ (copy_loop_spec k.log.lh.block k.log.slot m pend k h k.log.lh.n ?_ _ (NBUF ≤ pend.card) ?_)
    ?_ (fun _ _ he => he)
  · intro i hi t ht
    have := (hl.home t ht).2
    unfold Log.slot
    omega
  · intro t ht m' pend' k1 hc hpe hdz
    have hhome := hl.home t ht
    rw [hsd t (by omega)] at hpe
    subst hpe
    refine wp_mono _ _ _ _ _ _ (copy_to_first_spec m' pend' k1 hc (k.log.slot t) (k.log.lh.block t) ?_ ?_ ?_)
      (fun _ _ hq => hq) ?_
    · unfold Log.slot; omega
    · unfold Log.slot; omega
    · omega
    · rintro e k2 ⟨hr | ⟨hno, -⟩, hw⟩
      · exact ⟨hr, hw⟩
      · exact absurd (hpend t ht) hno
  · rintro _ k' ⟨hc, hw⟩
    rw [hsd _ le_rfl] at hc
    exact ⟨hc, hw⟩

theorem install_trans_spec (hl : Layout k.log k.disksize) (C : Prop)
    (hC : ∀ t < k.log.lh.n, Crowded (pend \ copied k.log.lh.block t) (k.log.lh.block t) → C) :
    let ws := copyWrites k.log.slot k.log.lh.block m
    wp install_trans (fun _ k' => Coh (quiet (applyW m (ws k.log.lh.n)) (pend \ k.log.lh.blocks.toFinset)) k' ∧
        Wrote (ws k.log.lh.n) k k')
      (fun _ k' => C ∧ ∃ t ≤ k.log.lh.n, Wrote (ws t) k k') k := by
  have hroom := hl.room
  have harea := hl.area
  have hblocks : copied k.log.lh.block k.log.lh.n = k.log.lh.blocks.toFinset := by
    ext b
    simp [copied, LogHeader.mem_blocks]
  unfold install_trans
  rw [wp_bind, wp_get, hl.dev]
  refine wp_mono _ _ _ _ _ _ (copy_loop_spec k.log.slot k.log.lh.block m pend k h k.log.lh.n ?_ _ C ?_)
    ?_ (fun _ _ he => he)
  · intro i hi t ht
    have := (hl.home i hi).2
    unfold Log.slot
    omega
  · intro t ht m' pend' k1 hc hpe hdz
    have hhome := hl.home t ht
    refine wp_mono _ _ _ _ _ _ (copy_to_second_spec m' pend' k1 hc (k.log.slot t) (k.log.lh.block t) ?_ ?_ ?_)
      (fun _ _ hq => hq) ?_
    · unfold Log.slot; omega
    · unfold Log.slot; omega
    · omega
    · rintro e k2 ⟨hr, hw⟩
      subst hpe
      exact ⟨hC t ht hr, hw⟩
  · rintro _ k' ⟨hc, hw⟩
    rw [hblocks] at hc
    exact ⟨hc, hw⟩

theorem write_head_spec (hdev : k.log.dev = ROOTDEV) (hs : k.log.start < k.disksize) (hp : k.log.start ∉ pend) :
    let hb := headBlock k.log.lh (m k.log.start)
    wp write_head (fun _ k' => Coh (quiet (update m k.log.start hb) pend) k' ∧ Wrote [(k.log.start, hb)] k k')
      (fun _ k' => NBUF ≤ pend.card ∧ Wrote [] k k') k := by
  unfold write_head
  rw [wp_bind, wp_get, hdev, wp_bind]
  refine wp_mono _ _ _ _ _ _ (bread_spec _ k h k.log.start) ?_ ?_
  · intro i k1 hi
    let v := (quiet m pend).lock i
    let k2 := k1.setBuf i fun b => { b with data := headBlock k.log.lh b.data }
    have h2 : Coh (v.edit i) k2 := setData_coh v k1 hi.coh i hi.got.held (headBlock k.log.lh)
    have hg2 : Got (v.edit i) k2 i k.log.start :=
      ⟨hi.got.held, by simpa [k2] using hi.got.dev, by simpa [k2] using hi.got.blockno⟩
    have hd2 : (k2.buf i).data = headBlock k.log.lh (m k.log.start) := by simp [k2, hi.data h, quiet]
    have h3 := stored_coh _ k2 h2 i _ hg2
    have h4 := released_coh _ _ h3 i hi.got.held (by simp [View.store, View.edit])
    rw [hd2] at h4
    simp only [setData, wp_bind, wp_modify]
    refine wp_mono _ _ _ _ _ _ (bwrite_spec _ k2 h2 i _ hg2 (by
      change _ < k1.disksize; rw [hi.wrote.disksize]; exact hs) _) ?_ (fun _ _ he => he)
    rintro _ _ rfl
    refine wp_mono _ _ _ _ _ _ (brelse_spec _ _ h3 i hi.got.held _) ?_ (fun _ _ he => he)
    rintro _ _ rfl
    refine ⟨?_, ?_⟩
    · have hv : ((v.edit i).store i k.log.start (headBlock k.log.lh (m k.log.start))).unlock i =
          quiet (update m k.log.start (headBlock k.log.lh (m k.log.start))) pend := by
        simp [v, View.edit, View.store, View.unlock, View.lock, quiet, Finset.erase_eq_of_notMem hp]
      rwa [hv] at h4
    · have hw := stored_wrote k2 i
      rw [hg2.blockno, hd2] at hw
      have hk : Wrote [] k1 k2 := ⟨by simp [k2, Kernel.setBuf], rfl, rfl, rfl, rfl⟩
      exact wrote_trans [] _ _ _ _ (wrote_trans [] [] _ _ _ hi.wrote hk)
        (wrote_trans _ [] _ _ _ hw (released_wrote _ i))
  · rintro e k1 ⟨hst, hw⟩
    refine ⟨?_, hw⟩
    cases hst with
    | full hb hr => simpa [quiet] using hr
    | self l hl => exact absurd hl.held (by simp [quiet])
    | range hr => omega

end

theorem coh_log (h : Coh v k) (log : Log) : Coh v { k with log := log } :=
  ⟨h.linked, h.unique, h.bufs, h.pinned, h.disk, h.evicted⟩

theorem slot_ne_start (t : Nat) : log.slot t ≠ log.start := by unfold Log.slot; omega

theorem home_ne_start (disksize : Nat) (hl : Layout log disksize) (t : Nat) (ht : t < log.lh.n) :
    log.lh.block t ≠ log.start := by
  have := (hl.home t ht).2
  have := hl.room
  omega

theorem copyWrites_first (t n : Nat) (h : t ≤ n) :
    copyWrites src dst m t <+: copyWrites src dst m n := by
  induction n with
  | zero => rw [Nat.le_zero.mp h]
  | succ n ih =>
    rcases Nat.le_succ_iff.mp h with h | rfl
    · rw [copyWrites_succ]; exact (ih h).trans ⟨_, rfl⟩
    · exact List.prefix_rfl

structure Cleared (ws : List (Nat × Block)) (m : Nat → Block) (k k' : Kernel) : Prop where
  coh : Coh (quiet m ∅) k'
  writes : k'.writes = k.writes ++ ws
  log : k'.log = { k.log with lh := { k.log.lh with n := 0 } }
  disksize : k'.disksize = k.disksize
  pid : k'.pid = k.pid

def StoppedIn (ws : List (Nat × Block)) (k k' : Kernel) : Prop := ∃ vs, vs <+: ws ∧ k'.writes = k.writes ++ vs

def installWrites (log : Log) (m : Nat → Block) : List (Nat × Block) :=
  copyWrites log.slot log.lh.block m log.lh.n ++ [(log.start, headBlock { log.lh with n := 0 } (m log.start))]

theorem install_clear_spec (h : Coh (quiet m pend) k)
    (hl : Layout k.log k.disksize) (hp : pend ⊆ k.log.lh.blocks.toFinset) (C : Prop)
    (hC : ∀ t < k.log.lh.n, Crowded (pend \ copied k.log.lh.block t) (k.log.lh.block t) → C) :
    let ws := installWrites k.log m
    wp (do install_trans; clear_lh; write_head) (fun _ => Cleared ws (applyW m ws) k)
      (fun _ k' => C ∧ StoppedIn ws k k') k := by
  have hroom := hl.room
  have harea := hl.area
  rw [wp_bind]
  refine wp_mono _ _ _ _ _ _ (install_trans_spec m pend k h hl C hC) ?_ ?_
  · rintro _ k1 ⟨hc1, hw1⟩
    rw [Finset.sdiff_eq_empty_iff_subset.mpr hp] at hc1
    simp only [clear_lh, wp_bind, wp_modify]
    let k2 : Kernel := { k1 with log := { k1.log with lh := { k1.log.lh with n := 0 } } }
    have hc2 : Coh (quiet (applyW m (copyWrites k.log.slot k.log.lh.block m k.log.lh.n)) ∅) k2 := coh_log _ k1 hc1 _
    have hlog : k2.log = { k.log with lh := { k.log.lh with n := 0 } } := by simp [k2, hw1.log]
    have hm : applyW m (copyWrites k.log.slot k.log.lh.block m k.log.lh.n) k.log.start = m k.log.start := by
      apply applyW_of_not_mem
      intro w hw
      obtain ⟨t, ht, rfl⟩ := (mem_copyWrites _ _ _ _ _).mp hw
      exact home_ne_start k.log k.disksize hl t ht
    refine wp_mono _ _ _ _ _ _ (write_head_spec _ ∅ k2 hc2 (by rw [hlog]; exact hl.dev) ?_ (by simp)) ?_ ?_
    · change k2.log.start < k1.disksize
      rw [hlog, hw1.disksize]
      change k.log.start < k.disksize
      omega
    · rintro _ k3 ⟨hc3, hw3⟩
      rw [hlog, hm] at hc3 hw3
      refine ⟨?_, ?_, hw3.log.trans hlog, hw3.disksize.trans hw1.disksize, hw3.pid.trans hw1.pid⟩
      · rw [← applyW_concat] at hc3; exact hc3
      · rw [hw3.writes, show k2.writes = k1.writes from rfl, hw1.writes, List.append_assoc]; rfl
    · rintro _ k3 ⟨hr, -⟩
      exact absurd hr (by decide)
  · rintro _ k1 ⟨hc, t, ht, hw⟩
    exact ⟨hc, _, (copyWrites_first _ _ _ t _ ht).trans ⟨_, rfl⟩, hw.writes⟩

def commitWrites (log : Log) (m : Nat → Block) : List (Nat × Block) :=
  let hb := headBlock log.lh (m log.start)
  copyWrites log.lh.block log.slot m log.lh.n ++ (log.start, hb) ::
    (copyWrites log.lh.block log.lh.block m log.lh.n ++ [(log.start, headBlock { log.lh with n := 0 } hb)])

theorem applyW_slot (d m : Nat → Block) (n t : Nat) (ht : t < n) :
    applyW d (copyWrites log.lh.block log.slot m n) (log.slot t) = m (log.lh.block t) := by
  apply applyW_eq
  · intro w hw hx
    obtain ⟨i, hi, rfl⟩ := (mem_copyWrites _ _ _ _ _).mp hw
    have : i = t := by simpa [Log.slot] using hx
    rw [this]
  · right; exact ⟨_, (mem_copyWrites _ _ _ _ _).mpr ⟨t, ht, rfl⟩, rfl⟩

theorem commitWrites_eq :
    let ws := copyWrites log.lh.block log.slot m log.lh.n ++ [(log.start, headBlock log.lh (m log.start))]
    commitWrites log m = ws ++ installWrites log (applyW m ws) := by
  have hcopy : copyWrites log.lh.block log.lh.block m log.lh.n = copyWrites log.slot log.lh.block
      (applyW m (copyWrites log.lh.block log.slot m log.lh.n ++ [(log.start, headBlock log.lh (m log.start))]))
      log.lh.n := by
    apply List.map_congr_left
    intro t ht
    rw [applyW_concat, update_of_ne (slot_ne_start log t), applyW_slot log m m _ t (List.mem_range.mp ht)]
  simp only [commitWrites, installWrites, hcopy, applyW_concat, update_self]
  simp

section

variable (log : Log) (disksize : Nat) (hl : Layout log disksize)
include hl

theorem blocks_outside (b : Nat) (hb : b ∈ log.lh.blocks.toFinset) : b < log.start ∨ log.start + log.size ≤ b := by
  obtain ⟨t, ht, rfl⟩ := (LogHeader.mem_blocks _ _).mp (List.mem_toFinset.mp hb)
  exact (hl.home t ht).2

theorem start_not_logged : log.start ∉ log.lh.blocks.toFinset := by
  intro hb
  have := blocks_outside log disksize hl _ hb
  have := hl.room
  omega

theorem crowded_of_install (t : Nat) (ht : t < log.lh.n)
    (hr : Crowded (log.lh.blocks.toFinset \ copied log.lh.block t) (log.lh.block t)) : NBUF ≤ log.lh.n := by
  rcases hr with hr | ⟨hno, -⟩
  · have h1 := Finset.card_le_card (@Finset.sdiff_subset _ _ log.lh.blocks.toFinset (copied log.lh.block t))
    have h2 := List.toFinset_card_le log.lh.blocks
    rw [LogHeader.blocks_length] at h2
    omega
  · refine absurd (Finset.mem_sdiff.mpr ⟨?_, fun hcp => ?_⟩) hno
    · exact List.mem_toFinset.mpr ((LogHeader.mem_blocks _ _).mpr ⟨t, ht, rfl⟩)
    · obtain ⟨i, hi, hit⟩ := Finset.mem_image.mp hcp
      have hi := Finset.mem_range.mp hi
      have := hl.distinct i (by omega) t ht hit
      omega

end

theorem commit_spec (h : Coh (quiet m k.log.lh.blocks.toFinset) k)
    (hl : Layout k.log k.disksize) (hn : 0 < k.log.lh.n) :
    wp commit (fun _ => Cleared (commitWrites k.log m) (applyW m (commitWrites k.log m)) k)
      (fun _ k' => NBUF ≤ k.log.lh.n ∧ StoppedIn (commitWrites k.log m) k k') k := by
  have hroom := hl.room
  have harea := hl.area
  have hcard := List.toFinset_card_le k.log.lh.blocks
  rw [LogHeader.blocks_length] at hcard
  unfold commit
  rw [wp_bind, wp_get, if_pos hn, wp_bind]
  refine wp_mono _ _ _ _ _ _ (write_log_spec m _ k h hl (blocks_outside k.log _ hl) ?_) ?_ ?_
  · intro t ht
    exact List.mem_toFinset.mpr ((LogHeader.mem_blocks _ _).mpr ⟨t, ht, rfl⟩)
  · rintro _ k1 ⟨hc1, hw1⟩
    have hm : applyW m (copyWrites k.log.lh.block k.log.slot m k.log.lh.n) k.log.start = m k.log.start := by
      apply applyW_of_not_mem
      intro w hw
      obtain ⟨t, ht, rfl⟩ := (mem_copyWrites _ _ _ _ _).mp hw
      exact slot_ne_start k.log t
    have hstart := start_not_logged k.log _ hl
    rw [wp_bind]
    refine wp_mono _ _ _ _ _ _ (write_head_spec _ _ k1 hc1 (by rw [hw1.log]; exact hl.dev) ?_
      (by rw [hw1.log]; exact hstart)) ?_ ?_
    · rw [hw1.log, hw1.disksize]; omega
    · rintro _ k2 ⟨hc2, hw2⟩
      rw [hw1.log, hm, ← applyW_concat] at hc2
      rw [hw1.log, hm] at hw2
      have hw := wrote_trans _ _ _ _ _ hw1 hw2
      have hlog : k2.log = k.log := hw.log
      have hspec := install_clear_spec _ _ k2 hc2 (by rw [hlog, hw.disksize]; exact hl) (by rw [hlog])
        (NBUF ≤ k.log.lh.n) (by rw [hlog]; exact crowded_of_install k.log _ hl)
      rw [hlog] at hspec
      refine wp_mono _ _ _ _ _ _ hspec ?_ ?_
      · rintro _ k3 ⟨hc3, hw3, hl3, hd3, hp3⟩
        rw [← applyW_append, ← commitWrites_eq] at hc3
        refine ⟨hc3, ?_, hl3.trans (by rw [hlog]), hd3.trans hw.disksize, hp3.trans hw.pid⟩
        rw [hw3, hw.writes, List.append_assoc, ← commitWrites_eq]
      · rintro _ k3 ⟨hr, vs, hvs, hw3⟩
        rw [StoppedIn, commitWrites_eq]
        exact ⟨hr, _, (List.prefix_append_right_inj _).mpr hvs, by rw [hw3, hw.writes, List.append_assoc]⟩
    · rintro _ k2 ⟨hr, hw2⟩
      refine ⟨le_trans hr hcard, _, ⟨_, rfl⟩, ?_⟩
      rw [hw2.writes, hw1.writes, List.append_nil]
  · rintro _ k1 ⟨hr, t, ht, hw⟩
    exact ⟨le_trans hr hcard, _, (copyWrites_first _ _ _ t _ ht).trans ⟨_, rfl⟩, hw.writes⟩

theorem commit_empty (hn : k.log.lh.n = 0) : commit k = (.ok (), k) := by
  unfold commit
  simp only [bind_apply, Cmd.get]
  rw [if_neg (by omega)]
  rfl

theorem commitWrites_outside (disksize : Nat) (hl : Layout log disksize) (m : Nat → Block) (b : Nat)
    (hb : b < log.start ∨ log.start + log.size ≤ b) : applyW m (commitWrites log m) b = m b := by
  have hroom := hl.room
  apply applyW_eq _ _ _ _ _ (Or.inl rfl)
  intro w hw hx
  simp only [commitWrites, List.mem_append, List.mem_cons, List.not_mem_nil, or_false] at hw
  rcases hw with hw | rfl | hw | rfl
  · obtain ⟨t, ht, rfl⟩ := (mem_copyWrites _ _ _ _ _).mp hw
    simp only [Log.slot] at hx
    omega
  · simp only at hx; omega
  · obtain ⟨t, ht, rfl⟩ := (mem_copyWrites _ _ _ _ _).mp hw
    rw [← hx]
  · simp only at hx; omega

def Log.load (log : Log) (d : Block) : Log := { log with lh := log.lh.load d }

theorem read_head_spec (h : Coh (quiet m ∅) k) (hdev : k.log.dev = ROOTDEV)
    (hs : k.log.start < k.disksize) (hn : headCount (m k.log.start) ≤ LOGSIZE) (E : Stop → Kernel → Prop) :
    wp read_head (fun _ k' => Coh (quiet m ∅) k' ∧ k'.log = k.log.load (m k.log.start) ∧ k'.writes = k.writes ∧
      k'.disksize = k.disksize ∧ k'.pid = k.pid) E k := by
  unfold read_head
  rw [wp_bind, wp_get, hdev, wp_bind]
  refine wp_mono _ _ _ _ _ _ (bread_spec _ k h k.log.start) ?_ ?_
  · intro i k1 hi
    have hd : (k1.buf i).data = m k.log.start := hi.data h
    rw [wp_bind, wp_get]
    dsimp only
    rw [hd, if_neg (by omega), wp_bind, wp_modify]
    let k2 : Kernel := { k1 with log := { k1.log with lh := k1.log.lh.load (m k.log.start) } }
    have h2 : Coh ((quiet m ∅).lock i) k2 := coh_log _ k1 hi.coh _
    have h3 := released_coh _ k2 h2 i hi.got.held (by simp [View.lock, quiet])
    refine wp_mono _ _ _ _ _ _ (brelse_spec _ k2 h2 i hi.got.held _) ?_ (fun _ _ he => he)
    rintro _ _ rfl
    have hw := released_wrote k2 i
    refine ⟨by simpa [View.unlock, View.lock, quiet] using h3, ?_, ?_, ?_, ?_⟩
    · rw [hw.log]; simp [k2, hi.wrote.log, Log.load]
    · rw [hw.writes]; simp [k2, hi.wrote.writes]
    · rw [hw.disksize]; exact hi.wrote.disksize
    · rw [hw.pid]; exact hi.wrote.pid
  · rintro e k1 ⟨hst, -⟩
    exfalso
    cases hst with
    | full hb hr => exact absurd hr (by change ¬ NBUF ≤ 0; decide)
    | self l hl => exact absurd hl.held (by simp [quiet])
    | range hr => omega

theorem recover_from_log_spec (h : Coh (quiet m ∅) k)
    (hl : Layout (k.log.load (m k.log.start)) k.disksize) (E : Stop → Kernel → Prop) :
    let ws := installWrites (k.log.load (m k.log.start)) m
    wp recover_from_log (fun _ k' => Coh (quiet (applyW m ws) ∅) k' ∧ k'.writes = k.writes ++ ws) E k := by
  have hroom := hl.room
  have harea := hl.area
  unfold recover_from_log
  rw [wp_bind]
  refine wp_mono _ _ _ _ _ _ (read_head_spec m k h hl.dev ?_ hl.slots E) ?_ (fun _ _ he => he)
  · simp only [Log.load] at hroom harea
    omega
  · rintro _ k1 ⟨hc, hlog, hw, hd, hp⟩
    have hspec := install_clear_spec m ∅ k1 hc (by rw [hlog, hd]; exact hl) (by simp) False ?_
    · rw [hlog] at hspec
      refine wp_mono _ _ _ _ _ _ hspec ?_ (fun _ _ he => he.1.elim)
      rintro _ k2 ⟨hc2, hw2, -, -, -⟩
      exact ⟨hc2, by rw [hw2, hw]⟩
    · rintro t - (hr | ⟨-, hr⟩)
      · exact absurd hr (by simp [NBUF, MAXOPBLOCKS])
      · exact absurd hr (by simp [NBUF, MAXOPBLOCKS])

end Xv6
