import Mathlib.Data.Finset.Card
import Mathlib.Data.List.GetD
import Xv6.Blocks.Slots

/-!
# Who owns a block

The code writes three parts of the disk: inodes, the bitmap, and the data blocks behind them. The bitmap marks
what is before the data and every data block that a slot of an inode holds. `cur` are the inodes as the code
knows them: the copy in memory for an inode that is being changed, and the one on disk for the others.
-/

open Lib Lib.Cmd Function

namespace Xv6.Blocks

variable {dev : Dev} {d d' : Disk} {cur : Nat → Dinode} {ip ip' : Dinode} {i j k b : Nat} {c : Block}

def Superblock.dataStart (sb : Superblock) : Nat := sb.size - sb.nblocks

def Superblock.Data (sb : Superblock) (b : Nat) : Prop := sb.dataStart ≤ b ∧ b < sb.size

structure Layout (sb : Superblock) : Prop where
  inodes : ∀ i < sb.ninodes, sb.IBLOCK i < sb.bmapstart
  bitmap : ∀ b < sb.size, sb.BBLOCK b < sb.dataStart
  size : sb.size ≤ 2 ^ 32

def Disk.put (d : Disk) (b : Nat) (c : Block) : Disk := ⟨update d.block b c, b :: d.log⟩

theorem put_block (b' : Nat) : (d.put b c).block b' = if b' = b then c else d.block b' := update_apply ..

theorem put_block_self : (d.put b c).block b = c := update_self ..

theorem put_block_ne {b' : Nat} (h : b' ≠ b) : (d.put b c).block b' = d.block b' := update_of_ne h ..

theorem used_put_ne {b' : Nat} (h : dev.sb.BBLOCK b' ≠ b) : (d.put b c).used dev b' = d.used dev b' := by
  unfold Disk.used
  rw [put_block_ne h]

theorem dinode_put_ne (h : dev.sb.IBLOCK j ≠ b) : (d.put b c).dinode dev j = d.dinode dev j := by
  unfold Disk.dinode
  rw [put_block_ne h]

namespace Layout

variable (L : Layout dev.sb)

include L

theorem data_ne_bitmap {b' : Nat} (hb : dev.sb.Data b) (hb' : b' < dev.sb.size) : dev.sb.BBLOCK b' ≠ b := by
  have := L.bitmap b' hb'
  have := hb.1
  omega

theorem bmapstart_lt (hb : b < dev.sb.size) : dev.sb.bmapstart < dev.sb.dataStart :=
  (Nat.le_add_left ..).trans_lt (L.bitmap b hb)

theorem data_ne_inode (hb : dev.sb.Data b) (hj : j < dev.sb.ninodes) : dev.sb.IBLOCK j ≠ b := by
  have := L.inodes j hj
  have := L.bmapstart_lt hb.2
  have := hb.1
  omega

theorem data_ne_zero (hb : dev.sb.Data b) : b ≠ 0 := by
  have := L.bitmap b hb.2
  have := hb.1
  omega

theorem bitmap_ne_inode (hj : j < dev.sb.ninodes) : dev.sb.IBLOCK j ≠ dev.sb.BBLOCK b := by
  have := L.inodes j hj
  have : dev.sb.bmapstart ≤ dev.sb.BBLOCK b := Nat.le_add_left ..
  omega

theorem used_put_data (hb : dev.sb.Data b) {b' : Nat} (hb' : b' < dev.sb.size) :
    (d.put b c).used dev b' = d.used dev b' :=
  used_put_ne (L.data_ne_bitmap hb hb')

theorem dinode_put_data (hb : dev.sb.Data b) (hj : j < dev.sb.ninodes) :
    (d.put b c).dinode dev j = d.dinode dev j :=
  dinode_put_ne (L.data_ne_inode hb hj)

theorem used_put_inode (hj : j < dev.sb.ninodes) (b' : Nat) :
    (d.put (dev.sb.IBLOCK j) c).used dev b' = d.used dev b' :=
  used_put_ne (L.bitmap_ne_inode hj).symm

theorem block_put_inode (hj : j < dev.sb.ninodes) {b' : Nat} (hb' : dev.sb.Data b') :
    (d.put (dev.sb.IBLOCK j) c).block b' = d.block b' :=
  put_block_ne (L.data_ne_inode hb' hj).symm

end Layout

theorem mod_IPB_lt (i : Nat) : i % IPB < IPB := Nat.mod_lt _ (by decide)

theorem eq_of_inode {i j : Nat} (hblk : dev.sb.IBLOCK j = dev.sb.IBLOCK i) (hpos : j % IPB = i % IPB) : j = i := by
  unfold Superblock.IBLOCK at hblk
  have := Nat.div_add_mod j IPB
  have := Nat.div_add_mod i IPB
  rw [Nat.add_right_cancel hblk, hpos] at *
  omega

def Disk.setDinode (dev : Dev) (d : Disk) (i : Nat) (ip : Dinode) : Disk :=
  d.put (dev.sb.IBLOCK i) ((d.block (dev.sb.IBLOCK i)).setDinode (i % IPB) ip)

theorem dinode_setDinode (hip : ip.Fits) (j : Nat) :
    (d.setDinode dev i ip).dinode dev j = update (d.dinode dev) i ip j := by
  rw [update_apply]
  unfold Disk.dinode Disk.setDinode
  rw [put_block]
  split_ifs with h e e
  · rw [e, dinode_setDinode_self _ (mod_IPB_lt i) hip]
  · rw [dinode_setDinode_ne _ _ (mod_IPB_lt j) (fun hpos => e (eq_of_inode h hpos)), h]
  · exact absurd (by rw [e]) h
  · rfl

def Disk.free (dev : Dev) (d : Disk) : Nat := ((Finset.range dev.sb.size).filter fun b => d.used dev b = false).card

theorem free_congr (h : ∀ b < dev.sb.size, d'.used dev b = d.used dev b) : d'.free dev = d.free dev := by
  unfold Disk.free
  congr 1
  apply Finset.filter_congr
  intro b hb
  rw [h b (Finset.mem_range.mp hb)]

structure Took (dev : Dev) (d d' : Disk) (b : Nat) : Prop where
  data : dev.sb.Data b
  fresh : d.used dev b = false
  used : ∀ b' < dev.sb.size, d'.used dev b' = (decide (b' = b) || d.used dev b')
  dinode : ∀ j < dev.sb.ninodes, d'.dinode dev j = d.dinode dev j
  zero : d'.block b = .zero
  block : ∀ b', dev.sb.Data b' → b' ≠ b → d'.block b' = d.block b'

theorem Took.free (h : Took dev d d' b) : d'.free dev + 1 = d.free dev := by
  have hmem : b ∈ (Finset.range dev.sb.size).filter fun b => d.used dev b = false :=
    Finset.mem_filter.mpr ⟨Finset.mem_range.mpr h.data.2, h.fresh⟩
  unfold Disk.free
  rw [← Finset.card_erase_add_one hmem]
  congr 2
  ext x
  simp only [Finset.mem_filter, Finset.mem_range, Finset.mem_erase]
  constructor
  · rintro ⟨hx, hu⟩
    rw [h.used x hx, Bool.or_eq_false_iff, decide_eq_false_iff_not] at hu
    exact ⟨hu.1, hx, hu.2⟩
  · rintro ⟨hne, hx, hu⟩
    rw [h.used x hx, hu, decide_eq_false hne]
    exact ⟨hx, rfl⟩

def System (dev : Dev) (d : Disk) : Prop := ∀ b < dev.sb.dataStart, d.used dev b = true

structure Image (dev : Dev) (d : Disk) (cur : Nat → Dinode) : Prop where
  layout : Layout dev.sb
  system : System dev d
  owns : Owns (fun b => dev.sb.Data b ∧ d.used dev b = true) (refs dev.sb.ninodes d.block cur)
  fits : ∀ j < dev.sb.ninodes, (cur j).Fits

namespace Image

variable (h : Image dev d cur)

include h

theorem slot_data (hi : i < dev.sb.ninodes) (ht : (cur i).type ≠ 0) (hk : slot d.block (cur i) k ≠ 0) :
    dev.sb.Data (slot d.block (cur i) k) := by
  rw [← refs_eq hi ht] at hk ⊢
  exact (h.owns.mem (i, k) hk).1

theorem slot_inj (hi : i < dev.sb.ninodes) (hti : (cur i).type ≠ 0) (hj : j < dev.sb.ninodes) (htj : (cur j).type ≠ 0)
    {k k' : Nat} (hk : slot d.block (cur i) k ≠ 0) (heq : slot d.block (cur i) k = slot d.block (cur j) k') :
    i = j ∧ k = k' := by
  rw [← refs_eq hi hti] at hk heq
  rw [← refs_eq hj htj] at heq
  exact Prod.mk.inj (h.owns.inj _ _ hk heq)

theorem slot_fresh (hi : i < dev.sb.ninodes) (ht : (cur i).type ≠ 0) (hb : dev.sb.Data b) (hf : d.used dev b = false)
    (k : Nat) : slot d.block (cur i) k ≠ b := by
  rintro rfl
  have h0 := h.layout.data_ne_zero hb
  rw [← refs_eq hi ht] at h0 hf
  have := (h.owns.mem (i, k) h0).2
  rw [hf] at this
  exact Bool.noConfusion this

end Image

variable (h : Image dev d cur)

section

include h

theorem Image.congr {cur' : Nat → Dinode} (hcur : ∀ j < dev.sb.ninodes, cur' j = cur j) :
    Image dev d cur' := by
  have hrefs : refs dev.sb.ninodes d.block cur' = refs dev.sb.ninodes d.block cur := by
    funext ⟨j, k⟩
    unfold refs
    by_cases hj : j < dev.sb.ninodes
    · simp only [hcur j hj]
    · simp only [hj, false_and, if_false]
  refine ⟨h.layout, h.system, ?_, fun j hj => ?_⟩
  · rw [hrefs]
    exact h.owns
  · rw [hcur j hj]
    exact h.fits j hj

theorem Image.slot_setDinode (hi : i < dev.sb.ninodes) (ip : Dinode) (hj : j < dev.sb.ninodes)
    (ht : (cur j).type ≠ 0) : slot (d.setDinode dev i ip).block (cur j) = slot d.block (cur j) := by
  refine slot_congr fun hind => h.layout.block_put_inode hi ?_
  rw [← @slot_ind d.block] at hind ⊢
  exact h.slot_data hj ht hind

theorem Image.setDinode (hi : i < dev.sb.ninodes) (ip : Dinode) :
    Image dev (d.setDinode dev i ip) cur := by
  have hrefs : refs dev.sb.ninodes (d.setDinode dev i ip).block cur = refs dev.sb.ninodes d.block cur := by
    funext ⟨j, k⟩
    unfold refs
    split_ifs with hj
    · rw [h.slot_setDinode hi ip hj.1 hj.2]
    · rfl
  refine ⟨h.layout, fun x hx => ?_, ?_, h.fits⟩
  · exact (h.layout.used_put_inode hi x).trans (h.system x hx)
  · rw [hrefs]
    refine h.owns.congr fun x => and_congr_right fun _ => ?_
    rw [Disk.setDinode, h.layout.used_put_inode hi x]

theorem Image.setCopy (hf : ip.Fits)
    (hrefs : ∀ k, refs dev.sb.ninodes d.block (update cur i ip) (i, k) = refs dev.sb.ninodes d.block cur (i, k)) :
    Image dev d (update cur i ip) := by
  have hall : refs dev.sb.ninodes d.block (update cur i ip) = refs dev.sb.ninodes d.block cur := by
    funext ⟨j, k⟩
    rcases eq_or_ne j i with rfl | hne
    · exact hrefs k
    · unfold refs
      rw [update_of_ne hne]
  refine ⟨h.layout, h.system, ?_, fun j hj => ?_⟩
  · rw [hall]
    exact h.owns
  · rcases eq_or_ne j i with rfl | hne
    · rwa [update_self]
    · rw [update_of_ne hne]
      exact h.fits j hj

/-- Other fields of an inode change. -/
theorem Image.setFields (ht : ip.type = (cur i).type) (ha : ip.addrs = (cur i).addrs) (hf : ip.Fits) :
    Image dev d (update cur i ip) := by
  refine h.setCopy hf fun k => ?_
  unfold refs
  rw [update_self, ht, slot_same_addrs ha]

end

def Spared (dev : Dev) (i : Nat) (cur : Nat → Dinode) (d d' : Disk) : Prop :=
  ∀ j k, j ≠ i → refs dev.sb.ninodes d.block cur (j, k) ≠ 0 →
    d'.block (refs dev.sb.ninodes d.block cur (j, k)) = d.block (refs dev.sb.ninodes d.block cur (j, k))

namespace Spared

variable {d₁ : Disk} {ip₁ : Dinode}

theorem slot (h : Spared dev i cur d d') (hj : j < dev.sb.ninodes) (ht : (cur j).type ≠ 0) (hne : j ≠ i) :
    slot d'.block (cur j) = slot d.block (cur j) := by
  apply slot_congr
  intro hind
  have := h j NDIRECT hne
  rw [refs_eq hj ht, slot_ind] at this
  exact this hind

theorem refs (h : Spared dev i cur d d') (ip' : Dinode) (hne : j ≠ i) (k : Nat) :
    refs dev.sb.ninodes d'.block (update cur i ip') (j, k) = refs dev.sb.ninodes d.block cur (j, k) := by
  unfold Blocks.refs
  rw [update_of_ne hne]
  split_ifs with hj
  · rw [h.slot hj.1 hj.2 hne]
  · rfl

theorem trans (h₁ : Spared dev i cur d d₁) (h₂ : Spared dev i (update cur i ip₁) d₁ d') : Spared dev i cur d d' := by
  intro j k hne hk
  have hsame := h₁.refs ip₁ hne k
  rw [← h₁ j k hne hk, ← hsame]
  exact h₂ j k hne (by rwa [hsame])

end Spared

def need (S : Finset Nat) (blk : Nat → Block) (ip : Dinode) : Nat := (S.filter fun k => slot blk ip k = 0).card

/-- `src` was written from byte `off` of inode `i` on; blocks were taken for slots in `S`. -/
structure Wrote (dev : Dev) (S : Finset Nat) (i : Nat) (cur : Nat → Dinode) (off : Nat) (src : List Byte) (d d' : Disk)
    (ip' : Dinode) : Prop where
  image : Image dev d' (update cur i ip')
  fields : ip' = { cur i with addrs := ip'.addrs }
  slots : ∀ k, slot d.block (cur i) k ≠ 0 → slot d'.block ip' k = slot d.block (cur i) k
  only : ∀ k ∉ S, slot d'.block ip' k = slot d.block (cur i) k
  there : ∀ x, off ≤ x → x < off + src.length → addrOf d'.block ip' (x / BSIZE) ≠ 0
  inside : ∀ x, off ≤ x → x < off + src.length → fileByte d'.block ip' x = src.getD (x - off) 0
  outside : ∀ x, addrOf d.block (cur i) (x / BSIZE) ≠ 0 → ¬ (off ≤ x ∧ x < off + src.length) →
    fileByte d'.block ip' x = fileByte d.block (cur i) x
  spared : Spared dev i cur d d'
  dinode : ∀ j < dev.sb.ninodes, d'.dinode dev j = d.dinode dev j
  spent : need S d'.block ip' + d.free dev = need S d.block (cur i) + d'.free dev

section

variable {S : Finset Nat} {d₁ : Disk} (h : Image dev d cur) (hi : i < dev.sb.ninodes) (ht : (cur i).type ≠ 0)

include h

theorem Wrote.nil : Wrote dev S i cur off [] d d (cur i) := by
  refine ⟨?_, rfl, fun _ _ => rfl, fun _ _ => rfl, fun x hx hx' => ?_, fun x hx hx' => ?_, fun _ _ _ => rfl,
    fun _ _ _ _ => rfl, fun _ _ => rfl, rfl⟩
  · rw [update_eq_self]
    exact h
  all_goals exact absurd hx' (by rw [List.length_nil]; omega)

include hi ht

end

variable {S : Finset Nat} {d₁ : Disk} {ip₁ : Dinode} {off : Nat}

theorem Wrote.type {src : List Byte} (h : Wrote dev S i cur off src d d' ip') : ip'.type = (cur i).type := by
  rw [h.fields]

theorem Wrote.append {a b : List Byte} (h₁ : Wrote dev S i cur off a d d₁ ip₁)
    (h₂ : Wrote dev S i (update cur i ip₁) (off + a.length) b d₁ d' ip') : Wrote dev S i cur off (a ++ b) d d' ip' := by
  have himage := h₂.image
  have hfields := h₂.fields
  have hslots := h₂.slots
  have honly := h₂.only
  have houtside := h₂.outside
  have hspent := h₂.spent
  rw [update_self] at hfields hslots honly houtside hspent
  rw [update_idem] at himage
  have hlen : (a ++ b).length = a.length + b.length := List.length_append
  have hkept : ∀ k, slot d.block (cur i) k ≠ 0 → slot d'.block ip' k = slot d.block (cur i) k := fun k hk => by
    rw [hslots k (by rw [h₁.slots k hk]; exact hk), h₁.slots k hk]
  refine ⟨himage, by rw [hfields, h₁.fields], hkept, fun k hk => by rw [honly k hk,
    h₁.only k hk], fun x hx hx' => ?_, fun x hx hx' => ?_,
    fun x h0 hx => ?_, h₁.spared.trans h₂.spared, fun j hj => by rw [h₂.dinode j hj, h₁.dinode j hj], ?_⟩
  · rcases Nat.lt_or_ge x (off + a.length) with hlt | hge
    · have h0 := h₁.there x hx hlt
      unfold addrOf at h0 ⊢
      rwa [hslots _ h0]
    · exact h₂.there x hge (by omega)
  · rcases Nat.lt_or_ge x (off + a.length) with hlt | hge
    · rw [houtside x (h₁.there x hx hlt) (by omega), h₁.inside x hx hlt, List.getD_append _ _ _ _ (by omega)]
    · rw [h₂.inside x hge (by omega), List.getD_append_right _ _ _ _ (by omega), Nat.sub_sub]
  · have h0' : addrOf d₁.block ip₁ (x / BSIZE) ≠ 0 := by
      unfold addrOf
      rwa [h₁.slots _ h0]
    rw [houtside x h0' (by omega), h₁.outside x h0 (by omega)]
  · have := h₁.spent
    omega

theorem Took.slot (h : Image dev d cur) (hi : i < dev.sb.ninodes) (ht : (cur i).type ≠ 0) (htook : Took dev d d₁ b) :
    slot d₁.block (cur i) = slot d.block (cur i) := by
  apply slot_congr
  intro hind
  rw [← @slot_ind d.block] at hind ⊢
  exact htook.block _ (h.slot_data hi ht hind) (h.slot_fresh hi ht htook.data htook.fresh _)

end Xv6.Blocks
