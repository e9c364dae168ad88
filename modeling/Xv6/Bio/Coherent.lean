import Mathlib.Data.Finset.Card
import Xv6.Bio.Cache
import Xv6.Bio.Disk
import Xv6.Lib.Writes

/-!
# The cache shows one map of blocks

One process runs. `m` is what every block holds, and the blocks in `pend` have their contents
in a dirty buffer only.
-/

open Lib Lib.Cmd Xv6.Cache

namespace Xv6

structure View where
  m : Nat → Block
  pend : Finset Nat
  /-- Buffers the process has locked. -/
  held : Finset (Fin NBUF)
  /-- Those whose data it has changed without writing it. -/
  mod : Finset (Fin NBUF)

/-- Nothing was lost when this buffer was recycled. -/
structure Harmless (e : Evict) : Prop where
  unused : e.old.refcnt = 0
  clean : e.old.dirty = false
  saved : e.old.dev = ROOTDEV → e.old.valid = true → e.old.data = e.home

structure BufOk (v : View) (pid : Nat) (i : Fin NBUF) (b : Buf) : Prop where
  refcnt : b.refcnt = if i ∈ v.held then 1 else 0
  lock : b.lock = if i ∈ v.held then ⟨true, pid⟩ else ⟨false, 0⟩
  mod : i ∈ v.mod → i ∈ v.held
  data : i ∉ v.mod → b.dev = ROOTDEV → b.valid = true → b.data = v.m b.blockno
  dirty : b.dirty = true → b.dev = ROOTDEV ∧ b.valid = true ∧ b.blockno ∈ v.pend

structure Coh (v : View) (k : Kernel) : Prop where
  linked : Linked k.bcache
  unique : Unique k.bcache
  bufs : ∀ i, BufOk v k.pid i (k.buf i)
  pinned : ∀ b ∈ v.pend, ∃ i, (k.buf i).dev = ROOTDEV ∧ (k.buf i).blockno = b ∧ (k.buf i).dirty = true
  disk : ∀ b ∉ v.pend, k.disk b = v.m b
  evicted : ∀ e ∈ k.evicted, Harmless e

/-- The disk changed by the writes `ws`, the log in memory and the machine did not. -/
structure Wrote (ws : List (Nat × Block)) (k k' : Kernel) : Prop where
  writes : k'.writes = k.writes ++ ws
  disk : k'.disk = applyW k.disk ws
  log : k'.log = k.log
  disksize : k'.disksize = k.disksize
  pid : k'.pid = k.pid

theorem wrote_nil (k : Kernel) : Wrote [] k k := ⟨by simp, rfl, rfl, rfl, rfl⟩

theorem wrote_trans (ws vs : List (Nat × Block)) (k k' k'' : Kernel) (h : Wrote ws k k') (h' : Wrote vs k' k'') :
    Wrote (ws ++ vs) k k'' where
  writes := by rw [h'.writes, h.writes, List.append_assoc]
  disk := by rw [h'.disk, h.disk, applyW_append]
  log := h'.log.trans h.log
  disksize := h'.disksize.trans h.disksize
  pid := h'.pid.trans h.pid

namespace Kernel

@[simp]
theorem buf_setBuf (k : Kernel) (i : Fin NBUF) (f : Buf → Buf) : (k.setBuf i f).buf i = f (k.buf i) :=
  setBuf_same k.bcache i f

@[simp]
theorem buf_setBuf_ne (k : Kernel) (i j : Fin NBUF) (f : Buf → Buf) (h : j ≠ i) : (k.setBuf i f).buf j = k.buf j :=
  setBuf_ne k.bcache i j f h

theorem isBlock_iff (k : Kernel) (dev b : Nat) (i : Fin NBUF) :
    k.bcache.isBlock dev b i = true ↔ (k.buf i).dev = dev ∧ (k.buf i).blockno = b := by
  simp [Bcache.isBlock, buf]

theorem isUnused_iff (k : Kernel) (i : Fin NBUF) :
    k.bcache.isUnused i = true ↔ (k.buf i).refcnt = 0 ∧ (k.buf i).dirty = false := by
  simp [Bcache.isUnused, buf]

end Kernel

section

variable (v : View) (k : Kernel) (h : Coh v k)
include h

theorem holding_of_held (i : Fin NBUF) (hi : i ∈ v.held) : k.bcache.holdingsleep k.pid i = true := by
  have := (h.bufs i).lock
  rw [if_pos hi] at this
  simp only [Bcache.holdingsleep]
  rw [show k.bcache.buf i = k.buf i from rfl, this]
  simp

theorem buf_inj (i j : Fin NBUF) (hi : (k.buf i).dev = ROOTDEV) (hj : (k.buf j).dev = ROOTDEV)
    (hb : (k.buf i).blockno = (k.buf j).blockno) : i = j :=
  h.unique i j (by change (k.buf i).dev ≠ 0; rw [hi]; decide) ⟨hi.trans hj.symm, hb⟩

theorem not_pend (i : Fin NBUF) (hd : (k.buf i).dev = ROOTDEV) (hi : (k.buf i).dirty = false) :
    (k.buf i).blockno ∉ v.pend := by
  intro hb
  obtain ⟨j, hj, hjb, hjd⟩ := h.pinned _ hb
  rw [buf_inj v k h i j hd hj hjb.symm, hjd] at hi
  cases hi

theorem not_held_of_unused (i : Fin NBUF) (hi : k.bcache.isUnused i = true) : i ∉ v.held := by
  intro hm
  have := (h.bufs i).refcnt
  rw [if_pos hm, ((Kernel.isUnused_iff k i).mp hi).1] at this
  omega

theorem exists_unused (hr : v.pend.card + v.held.card < NBUF) : ∃ i, k.bcache.isUnused i = true := by
  let D : Finset (Fin NBUF) := Finset.univ.filter fun i => (k.buf i).dirty = true
  have hD : D.card ≤ v.pend.card := by
    apply Finset.card_le_card_of_injOn fun i => (k.buf i).blockno
    · intro i hi; exact ((h.bufs i).dirty (by simpa [D] using hi)).2.2
    · intro i hi j hj hij
      have hi := (h.bufs i).dirty (by simpa [D] using hi)
      have hj := (h.bufs j).dirty (by simpa [D] using hj)
      exact buf_inj v k h i j hi.1 hj.1 hij
  have hlt : (D ∪ v.held).card < (Finset.univ : Finset (Fin NBUF)).card := by
    have := Finset.card_union_le D v.held
    rw [Finset.card_univ, Fintype.card_fin]
    omega
  obtain ⟨i, -, hi⟩ := Finset.exists_mem_notMem_of_card_lt_card hlt
  simp only [Finset.mem_union, not_or, D, Finset.mem_filter, Finset.mem_univ, true_and] at hi
  refine ⟨i, (Kernel.isUnused_iff k i).mpr ⟨?_, by simpa using hi.1⟩⟩
  rw [(h.bufs i).refcnt, if_neg hi.2]

end

variable (v : View) (k : Kernel) (i : Fin NBUF) (f : Buf → Buf)

theorem coh_one (v v' : View) (k k' : Kernel) (i : Fin NBUF) (h : Coh v k) (hm : v'.m = v.m) (hp : v'.pend = v.pend)
    (hheld : ∀ j, j ≠ i → (j ∈ v'.held ↔ j ∈ v.held)) (hmod : ∀ j, j ≠ i → (j ∈ v'.mod ↔ j ∈ v.mod))
    (hother : ∀ j, j ≠ i → k'.buf j = k.buf j) (hpid : k'.pid = k.pid) (hdisk : k'.disk = k.disk)
    (hl : Linked k'.bcache) (hu : Unique k'.bcache) (hi : BufOk v' k.pid i (k'.buf i))
    (hpin : (k.buf i).dirty = true →
      (k'.buf i).dirty = true ∧ (k'.buf i).dev = (k.buf i).dev ∧ (k'.buf i).blockno = (k.buf i).blockno)
    (hev : ∀ e ∈ k'.evicted, Harmless e) : Coh v' k' where
  linked := hl
  unique := hu
  bufs := by
    intro j
    by_cases hj : j = i
    · subst hj; rw [hpid]; exact hi
    · have hb := h.bufs j
      rw [hother j hj, hpid]
      refine ⟨?_, ?_, ?_, ?_, ?_⟩
      · simpa only [hheld j hj] using hb.refcnt
      · simpa only [hheld j hj] using hb.lock
      · simpa only [hheld j hj, hmod j hj] using hb.mod
      · simpa only [hmod j hj, hm] using hb.data
      · simpa only [hp] using hb.dirty
  pinned := by
    intro b hb
    rw [hp] at hb
    obtain ⟨j, h1, h2, h3⟩ := h.pinned b hb
    by_cases hj : j = i
    · subst hj
      obtain ⟨hd, hdev, hno⟩ := hpin h3
      exact ⟨j, hdev.trans h1, hno.trans h2, hd⟩
    · exact ⟨j, by rw [hother j hj]; exact ⟨h1, h2, h3⟩⟩
  disk := by rw [hp, hm, hdisk]; exact h.disk
  evicted := hev

theorem setBuf_unique (c : Bcache) (i : Fin NBUF) (f : Buf → Buf) (h : Unique c)
    (hd : (f (c.buf i)).dev = (c.buf i).dev) (hb : (f (c.buf i)).blockno = (c.buf i).blockno) :
    Unique (c.setBuf i f) := by
  apply unique_of_identity _ _ h
  intro j
  by_cases hj : j = i
  · subst hj; simp [hd, hb]
  · simp [hj]

theorem coh_setBuf (v v' : View) (k : Kernel) (i : Fin NBUF) (f : Buf → Buf) (h : Coh v k) (hm : v'.m = v.m)
    (hp : v'.pend = v.pend) (hheld : ∀ j, j ≠ i → (j ∈ v'.held ↔ j ∈ v.held))
    (hmod : ∀ j, j ≠ i → (j ∈ v'.mod ↔ j ∈ v.mod)) (hd : (f (k.buf i)).dev = (k.buf i).dev)
    (hb : (f (k.buf i)).blockno = (k.buf i).blockno) (hpin : (k.buf i).dirty = true → (f (k.buf i)).dirty = true)
    (hi : BufOk v' k.pid i (f (k.buf i))) : Coh v' (k.setBuf i f) := by
  apply coh_one v v' k _ i h hm hp hheld hmod (fun j hj => Kernel.buf_setBuf_ne k i j f hj) rfl rfl h.linked
    (setBuf_unique k.bcache i f h.unique hd hb)
  · rwa [Kernel.buf_setBuf]
  · intro hdirty
    rw [Kernel.buf_setBuf]
    exact ⟨hpin hdirty, hd, hb⟩
  · exact h.evicted

structure Got (v : View) (k : Kernel) (i : Fin NBUF) (b : Nat) : Prop where
  held : i ∈ v.held
  dev : (k.buf i).dev = ROOTDEV
  blockno : (k.buf i).blockno = b

def View.lock (v : View) (i : Fin NBUF) : View := { v with held := insert i v.held }

/-- Why `bread` of block `b` stops. -/
inductive BreadStop (v : View) (k : Kernel) (b : Nat) : Stop → Prop where
  | full (hb : b ∉ v.pend) (hr : NBUF ≤ v.pend.card + v.held.card) : BreadStop v k b (.panic "bget: no buffers")
  | self (i : Fin NBUF) (hi : Got v k i b) : BreadStop v k b .hang
  | range (hb : k.disksize ≤ b) : BreadStop v k b (.panic "iderw: block out of range")

def lockBuf (k : Kernel) (i : Fin NBUF) : Kernel := k.setBuf i fun b => { b with lock := ⟨true, k.pid⟩ }

theorem acquiresleep_spec (Q : Unit → Kernel → Prop) (E : Stop → Kernel → Prop)
    (hq : (k.buf i).lock.locked = false → Q () (lockBuf k i)) (he : (k.buf i).lock.locked = true → E .hang k) :
    wp (acquiresleep i) Q E k := by
  unfold acquiresleep Bcache.acquiresleep
  rw [wp_bind, wp_get]
  by_cases hl : (k.buf i).lock.locked = true
  · rw [if_pos (show (k.bcache.buf i).lock.locked = true from hl)]
    exact he hl
  · rw [if_neg (show ¬ (k.bcache.buf i).lock.locked = true from hl)]
    exact hq (by simpa using hl)

theorem coh_hit (h : Coh v k) (i : Fin NBUF) (hi : i ∉ v.held) :
    Coh (v.lock i) (lockBuf { k with bcache := hit k.bcache i } i) := by
  have hb := h.bufs i
  have heq : lockBuf { k with bcache := hit k.bcache i } i =
      k.setBuf i fun b => { b with refcnt := b.refcnt + 1, lock := ⟨true, k.pid⟩ } := by
    simp [lockBuf, hit, Kernel.setBuf, Bcache.setBuf]
  rw [heq]
  apply coh_setBuf v (v.lock i) k i _ h rfl rfl _ (fun _ _ => Iff.rfl) rfl rfl (fun hd => hd)
  · refine ⟨?_, ?_, ?_, hb.data, hb.dirty⟩
    · simp [View.lock, hb.refcnt, hi]
    · simp [View.lock]
    · intro hm; exact absurd (hb.mod hm) hi
  · intro j hj; simp [View.lock, hj]

theorem coh_recycle (h : Coh v k) (i : Fin NBUF) (b : Nat)
    (hno : ∀ j, k.bcache.isBlock ROOTDEV b j = false) (hi : k.bcache.isUnused i = true) :
    Coh (v.lock i) (lockBuf { k.recordEvict ROOTDEV b i with bcache := recycle k.bcache ROOTDEV b i } i) := by
  have hu := (Kernel.isUnused_iff k i).mp hi
  have hheld := not_held_of_unused v k h i hi
  have hmod : i ∉ v.mod := fun hm => hheld ((h.bufs i).mod hm)
  have hold : Harmless ⟨k.buf i, k.disk (k.buf i).blockno⟩ := by
    refine ⟨hu.1, hu.2, fun hd hv => ?_⟩
    rw [h.disk _ (not_pend v k h i hd hu.2)]
    exact (h.bufs i).data hmod hd hv
  apply coh_one v (v.lock i) k _ i h rfl rfl
  · intro j hj; simp [View.lock, hj]
  · intro j hj; rfl
  · intro j hj; simp [lockBuf, Kernel.buf, Kernel.setBuf, recycle, hj]
  · simp [lockBuf, Kernel.setBuf, Kernel.recordEvict, hno]
  · simp [lockBuf, Kernel.setBuf, Kernel.recordEvict, hno]
  · exact h.linked
  · exact setBuf_unique (recycle k.bcache ROOTDEV b i) i (fun b => { b with lock := ⟨true, _⟩ })
      (recycle_unique k.bcache ROOTDEV b i h.unique hno) rfl rfl
  · refine ⟨?_, ?_, ?_, ?_, ?_⟩ <;>
      simp [lockBuf, Kernel.buf, Kernel.setBuf, Kernel.recordEvict, recycle, View.lock, hno, hmod]
  · intro hd; rw [hu.2] at hd; cases hd
  · intro e he
    simp only [lockBuf, Kernel.setBuf, Kernel.recordEvict, hno, Bool.false_eq_true, if_false, List.mem_append,
      List.mem_singleton] at he
    rcases he with he | rfl
    · exact h.evicted e he
    · exact hold

/-- A buffer for block `b` is locked. It may still have to be read. -/
structure BgetPost (v : View) (k : Kernel) (b : Nat) (i : Fin NBUF) (k' : Kernel) : Prop where
  fresh : i ∉ v.held
  coh : Coh (v.lock i) k'
  got : Got (v.lock i) k' i b
  other : ∀ j, j ≠ i → k'.buf j = k.buf j
  wrote : Wrote [] k k'

theorem bget_spec (h : Coh v k) (b : Nat) :
    wp (bget ROOTDEV b) (BgetPost v k b) (fun e k' => BreadStop v k b e ∧ Wrote [] k k') k := by
  unfold bget
  rw [wp_bind, wp_get]
  rcases bgetSection_cases k.bcache ROOTDEV b h.linked with ⟨i, hi, he⟩ | ⟨i, hno, hi, he⟩ | ⟨hno, hnu, he⟩
  · rw [he]
    have hid := (Kernel.isBlock_iff k ROOTDEV b i).mp hi
    have hk : { k.recordEvict ROOTDEV b i with bcache := hit k.bcache i } = { k with bcache := hit k.bcache i } := by
      simp [Kernel.recordEvict, hi]
    have hlock : ((hit k.bcache i).buf i).lock = (k.buf i).lock := by simp [hit, Kernel.buf]
    simp only [wp_bind, wp_modify, wp_pure]
    rw [hk]
    apply acquiresleep_spec
    · intro hl
      have hheld : i ∉ v.held := by
        intro hm
        rw [Kernel.buf, hlock, (h.bufs i).lock, if_pos hm] at hl
        cases hl
      refine ⟨hheld, coh_hit v k h i hheld, ⟨by simp [View.lock], ?_, ?_⟩, ?_,
        ⟨by simp [lockBuf, Kernel.setBuf], rfl, rfl, rfl, rfl⟩⟩
      · simpa [lockBuf, Kernel.buf, Kernel.setBuf, hit] using hid.1
      · simpa [lockBuf, Kernel.buf, Kernel.setBuf, hit] using hid.2
      · intro j hj; simp [lockBuf, Kernel.buf, Kernel.setBuf, hit, hj]
    · intro hl
      have hheld : i ∈ v.held := by
        by_contra hm
        rw [Kernel.buf, hlock, (h.bufs i).lock, if_neg hm] at hl
        cases hl
      exact ⟨.self i ⟨hheld, hid.1, hid.2⟩, ⟨by simp, rfl, rfl, rfl, rfl⟩⟩
  · rw [he]
    simp only [wp_bind, wp_modify, wp_pure]
    have hheld := not_held_of_unused v k h i hi
    apply acquiresleep_spec
    · intro hl
      refine ⟨hheld, coh_recycle v k h i b hno hi, ⟨by simp [View.lock], ?_, ?_⟩, ?_, ?_⟩
      · simp [lockBuf, Kernel.buf, Kernel.setBuf, recycle]
      · simp [lockBuf, Kernel.buf, Kernel.setBuf, recycle]
      · intro j hj; simp [lockBuf, Kernel.buf, Kernel.setBuf, recycle, hj]
      · refine ⟨?_, ?_, ?_, ?_, ?_⟩ <;> simp [lockBuf, Kernel.setBuf, Kernel.recordEvict, hno]
    · intro hl
      have : ((recycle k.bcache ROOTDEV b i).buf i).lock = (k.buf i).lock := by simp [recycle, Kernel.buf]
      rw [Kernel.buf, this, (h.bufs i).lock, if_neg hheld] at hl
      cases hl
  · rw [he, wp_fail]
    refine ⟨.full ?_ ?_, wrote_nil k⟩
    · intro hb
      obtain ⟨j, hj, hjb, -⟩ := h.pinned b hb
      have := (Kernel.isBlock_iff k ROOTDEV b j).mpr ⟨hj, hjb⟩
      rw [hno j] at this
      cases this
    · by_contra hr
      obtain ⟨j, hj⟩ := exists_unused v k h (by omega)
      rw [hnu j] at hj
      cases hj

theorem iderw_read_spec (h : Coh v k) (i : Fin NBUF) (b : Nat) (hi : Got v k i b)
    (hv : (k.buf i).valid = false) :
    wp (iderw i) (fun _ k' => Coh v k' ∧ Got v k' i b ∧ (k'.buf i).valid = true ∧ (∀ j, j ≠ i → k'.buf j = k.buf j) ∧
      Wrote [] k k') (fun e k' => e = .panic "iderw: block out of range" ∧ k.disksize ≤ b ∧ k' = k) k := by
  have hclean : (k.buf i).dirty = false := by
    by_contra hd
    have := ((h.bufs i).dirty (by simpa using hd)).2.1
    rw [hv] at this
    cases this
  have hdisk := h.disk _ (not_pend v k h i hi.dev hclean)
  have hb := h.bufs i
  unfold iderw
  simp only [wp_bind, wp_get, holding_of_held v k h i hi.held, hv, hi.dev, hclean, hi.blockno, Bool.not_true,
    Bool.false_eq_true, Bool.false_and, if_false, ROOTDEV, ne_eq, not_true_eq_false]
  split
  · rename_i hr
    exact ⟨rfl, hr, rfl⟩
  · rw [wp_modify]
    refine ⟨?_, ⟨hi.held, by simpa using hi.dev, by simpa using hi.blockno⟩, by simp, ?_,
      ⟨by simp [Kernel.setBuf], rfl, rfl, rfl, rfl⟩⟩
    · apply coh_setBuf v v k i _ h rfl rfl (fun _ _ => Iff.rfl) (fun _ _ => Iff.rfl) rfl rfl (fun hd => hd)
      refine ⟨hb.refcnt, hb.lock, hb.mod, fun _ _ _ => hdisk, ?_⟩
      intro hd
      simp [hclean] at hd
    · intro j hj; simp [hj]

structure BreadPost (v : View) (k : Kernel) (b : Nat) (i : Fin NBUF) (k' : Kernel) : Prop extends
    BgetPost v k b i k' where
  valid : (k'.buf i).valid = true

theorem BreadPost.data {v : View} {k : Kernel} {b : Nat} {i : Fin NBUF} {k' : Kernel} (hp : BreadPost v k b i k')
    (h : Coh v k) : (k'.buf i).data = v.m b := by
  have hm : i ∉ v.mod := fun hm => hp.fresh ((h.bufs i).mod hm)
  have := (hp.coh.bufs i).data hm hp.got.dev hp.valid
  rwa [hp.got.blockno] at this

theorem bread_spec (h : Coh v k) (b : Nat) :
    wp (bread ROOTDEV b) (BreadPost v k b) (fun e k' => BreadStop v k b e ∧ Wrote [] k k') k := by
  unfold bread
  rw [wp_bind]
  apply wp_mono _ _ _ _ _ _ (bget_spec v k h b) _ (fun _ _ he => he)
  intro i k1 hp
  rw [wp_bind, wp_get]
  by_cases hv : (k1.buf i).valid = true
  · rw [hv]
    exact ⟨hp, hv⟩
  · have hv : (k1.buf i).valid = false := by simpa using hv
    rw [hv]
    simp only [Bool.not_false, if_true, wp_bind, wp_pure]
    apply wp_mono _ _ _ _ _ _ (iderw_read_spec (v.lock i) k1 hp.coh i b hp.got hv)
    · rintro _ k2 ⟨hc, hg, hv2, ho, hw⟩
      refine ⟨⟨hp.fresh, hc, hg, fun j hj => (ho j hj).trans (hp.other j hj), ?_⟩, hv2⟩
      exact wrote_trans [] [] k k1 k2 hp.wrote hw
    · rintro e k2 ⟨rfl, hr, rfl⟩
      exact ⟨.range (by rwa [hp.wrote.disksize] at hr), hp.wrote⟩

def View.edit (v : View) (i : Fin NBUF) : View := { v with mod := insert i v.mod }

theorem setData_coh (h : Coh v k) (i : Fin NBUF) (hi : i ∈ v.held) (f : Block → Block) :
    Coh (v.edit i) (k.setBuf i fun b => { b with data := f b.data }) := by
  have hb := h.bufs i
  apply coh_setBuf v (v.edit i) k i _ h rfl rfl (fun _ _ => Iff.rfl) _ rfl rfl (fun hd => hd)
  · refine ⟨hb.refcnt, hb.lock, fun _ => hi, ?_, hb.dirty⟩
    intro hm
    simp [View.edit] at hm
  · intro j hj; simp [View.edit, hj]

/-- Block `b` now has contents `d`, on disk too. -/
def View.store (v : View) (i : Fin NBUF) (b : Nat) (d : Block) : View :=
  { v with m := Function.update v.m b d, pend := v.pend.erase b, mod := v.mod.erase i }

def stored (k : Kernel) (i : Fin NBUF) : Kernel :=
  (k.setBuf i fun b => { b with dirty := false, valid := true }).writeDisk (k.buf i).blockno (k.buf i).data

theorem stored_coh (h : Coh v k) (i : Fin NBUF) (b : Nat) (hi : Got v k i b) :
    Coh (v.store i b (k.buf i).data) (stored k i) := by
  have hne : ∀ j, j ≠ i → (k.buf j).dev = ROOTDEV → (k.buf j).blockno ≠ b := by
    intro j hj hd hjb
    exact hj (buf_inj v k h j i hd hi.dev (hjb.trans hi.blockno.symm))
  have hself : (stored k i).buf i = { k.buf i with dirty := false, valid := true } := by
    simp [stored, Kernel.writeDisk, Kernel.setBuf, Kernel.buf]
  have hother : ∀ j, j ≠ i → (stored k i).buf j = k.buf j := by
    intro j hj
    simp [stored, Kernel.writeDisk, Kernel.setBuf, Kernel.buf, hj]
  refine ⟨h.linked, ?_, ?_, ?_, ?_, h.evicted⟩
  · exact setBuf_unique k.bcache i (fun b => { b with dirty := false, valid := true }) h.unique rfl rfl
  · intro j
    have hb := h.bufs j
    by_cases hj : j = i
    · subst hj
      rw [hself]
      refine ⟨hb.refcnt, hb.lock, fun hm => ?_, ?_, by simp⟩
      · simp [View.store] at hm
      · intro _ _ _; simp [View.store, hi.blockno]
    · rw [hother j hj]
      refine ⟨hb.refcnt, hb.lock, fun hm => hb.mod (Finset.mem_of_mem_erase hm), ?_, ?_⟩
      · intro hm hd hv
        have hm : j ∉ v.mod := fun hm' => hm (Finset.mem_erase.mpr ⟨hj, hm'⟩)
        simpa [View.store, hne j hj hd] using hb.data hm hd hv
      · intro hd
        obtain ⟨h1, h2, h3⟩ := hb.dirty hd
        exact ⟨h1, h2, Finset.mem_erase.mpr ⟨hne j hj h1, h3⟩⟩
  · intro c hc
    obtain ⟨hcb, hc⟩ := Finset.mem_erase.mp hc
    obtain ⟨j, h1, h2, h3⟩ := h.pinned c hc
    have hj : j ≠ i := by
      rintro rfl
      exact hcb (h2.symm.trans hi.blockno)
    exact ⟨j, by rw [hother j hj]; exact ⟨h1, h2, h3⟩⟩
  · intro c hc
    by_cases hcb : c = b
    · subst hcb; simp [stored, Kernel.writeDisk, View.store, hi.blockno]
    · have hcp : c ∉ v.pend := fun hm => hc (Finset.mem_erase.mpr ⟨hcb, hm⟩)
      simpa [stored, Kernel.writeDisk, View.store, hi.blockno, hcb, Kernel.setBuf] using h.disk c hcp

theorem bwrite_spec (h : Coh v k) (i : Fin NBUF) (b : Nat) (hi : Got v k i b)
    (hr : b < k.disksize) (E : Stop → Kernel → Prop) :
    wp (bwrite i) (fun _ k' => k' = stored k i) E k := by
  have hold := holding_of_held v k h i hi.held
  have hold' : (k.setBuf i fun b => { b with dirty := true }).bcache.holdingsleep k.pid i = true := by
    simpa [Bcache.holdingsleep, Kernel.setBuf] using hold
  unfold bwrite iderw
  simp only [wp_bind, wp_get, hold, Bool.not_true, Bool.false_eq_true, if_false, wp_modify, Kernel.buf_setBuf]
  rw [show (k.setBuf i fun b => { b with dirty := true }).pid = k.pid from rfl, hold']
  have hlt : ¬ (k.setBuf i fun b => { b with dirty := true }).disksize ≤ b := by
    simpa [Kernel.setBuf] using hr
  simp only [Bool.not_true, Bool.and_false, Bool.false_eq_true, if_false, hi.dev, hi.blockno, ROOTDEV, ne_eq,
    not_true_eq_false, hlt, if_true, wp_modify]
  simp [stored, Kernel.setBuf, Bcache.setBuf, Kernel.writeDisk, hi.blockno]

theorem stored_wrote : Wrote [((k.buf i).blockno, (k.buf i).data)] k (stored k i) :=
  ⟨rfl, rfl, rfl, rfl, rfl⟩

def View.unlock (v : View) (i : Fin NBUF) : View := { v with held := v.held.erase i }

def released (k : Kernel) (i : Fin NBUF) : Kernel :=
  { k with bcache := (k.bcache.releasesleep i).brelseSection i }

theorem released_buf :
    (released k i).buf i = { k.buf i with lock := ⟨false, 0⟩, refcnt := (k.buf i).refcnt - 1 } := by
  simp [released, brelseSection_buf, Bcache.releasesleep, Kernel.buf]

theorem released_buf_ne (i j : Fin NBUF) (hj : j ≠ i) : (released k i).buf j = k.buf j := by
  simp [released, brelseSection_buf, Bcache.releasesleep, Kernel.buf, hj]

theorem released_wrote : Wrote [] k (released k i) :=
  ⟨by simp [released], rfl, rfl, rfl, rfl⟩

theorem released_coh (h : Coh v k) (i : Fin NBUF) (hi : i ∈ v.held) (hm : i ∉ v.mod) :
    Coh (v.unlock i) (released k i) := by
  have hb := h.bufs i
  apply coh_one v (v.unlock i) k (released k i) i h rfl rfl _ (fun _ _ => Iff.rfl)
    (fun j hj => released_buf_ne k i j hj) rfl rfl (brelseSection_linked _ i h.linked)
  · apply unique_of_identity k.bcache _ h.unique
    intro j
    change ((released k i).buf j).dev = (k.buf j).dev ∧ ((released k i).buf j).blockno = (k.buf j).blockno
    by_cases hj : j = i
    · subst hj; rw [released_buf]; exact ⟨rfl, rfl⟩
    · rw [released_buf_ne k i j hj]; exact ⟨rfl, rfl⟩
  · rw [released_buf]
    refine ⟨?_, ?_, fun hm' => absurd hm' hm, hb.data, hb.dirty⟩
    · simp [View.unlock, hb.refcnt, hi]
    · simp [View.unlock]
  · intro hd
    rw [released_buf]
    exact ⟨hd, rfl, rfl⟩
  · exact h.evicted
  · intro j hj; simp [View.unlock, hj]

theorem brelse_spec (h : Coh v k) (i : Fin NBUF) (hi : i ∈ v.held)
    (E : Stop → Kernel → Prop) : wp (brelse i) (fun _ k' => k' = released k i) E k := by
  unfold brelse
  simp only [wp_bind, wp_get, holding_of_held v k h i hi, Bool.not_true, Bool.false_eq_true, if_false, wp_modify]
  rfl

end Xv6
