import Mathlib.Order.Interval.Finset.Nat
import Xv6.Blocks.Owned

/-!
# Files as byte strings

`readi` and `writei` go through the blocks that hold a range of bytes.
-/

open Lib Lib.Cmd Function

namespace Xv6.Blocks

variable {dev : Dev} {blk : Nat → Block} {d d' d₁ : Disk} {cur : Nat → Dinode} {ip ip' ip₁ : Dinode} {S : Finset Nat}
  {i j k off n x : Nat} {src : List Byte}

/-- The slots of the blocks with bytes from `off` on, and of the indirect block if it is needed. -/
def span (off n : Nat) : Finset Nat :=
  (Finset.Ico off (off + n)).image (fun x => slotOf (x / BSIZE)) ∪
    ((Finset.Ico off (off + n)).filter fun x => NDIRECT ≤ x / BSIZE).image fun _ => NDIRECT

theorem addrOf_ind {bn : Nat} (h : addrOf blk ip bn ≠ 0) (hbn : NDIRECT ≤ bn) : ip.addrs ind ≠ 0 := by
  intro h0
  apply h
  unfold addrOf slotOf
  rw [if_neg (by omega), slot_ge (by omega), if_neg (fun hc => hc.1 h0)]

theorem need_span (h : ∀ x, off ≤ x → x < off + n → addrOf blk ip (x / BSIZE) ≠ 0) : need (span off n) blk ip = 0 := by
  refine Finset.card_eq_zero.mpr (Finset.filter_eq_empty_iff.mpr fun k hk => ?_)
  simp only [span, Finset.mem_union, Finset.mem_image, Finset.mem_Ico, Finset.mem_filter] at hk
  rcases hk with ⟨x, hx, rfl⟩ | ⟨x, ⟨hx, hle⟩, rfl⟩
  · exact h x hx.1 hx.2
  · rw [slot_ind]
    exact addrOf_ind (h x hx.1 hx.2) hle

theorem div_BSIZE {m : Nat} (h : off % BSIZE + m ≤ BSIZE) (hx : off ≤ x) (hx' : x < off + m) :
    x / BSIZE = off / BSIZE ∧ x % BSIZE = off % BSIZE + (x - off) := by
  unfold BSIZE at *
  omega

@[simp]
theorem length_fileBytes : (fileBytes blk ip off n).length = n := by
  unfold fileBytes
  rw [List.length_map, List.length_range]

theorem getD_fileBytes (hx : x < n) : (fileBytes blk ip off n).getD x 0 = fileByte blk ip (off + x) := by
  unfold fileBytes
  rw [List.getD_eq_getElem?_getD, List.getElem?_map, List.getElem?_range hx]
  rfl

theorem fileBytes_add (m n : Nat) :
    fileBytes blk ip off (m + n) = fileBytes blk ip off m ++ fileBytes blk ip (off + m) n := by
  unfold fileBytes
  rw [List.range_add, List.map_append, List.map_map]
  congr 1
  apply List.map_congr_left
  intro x _
  rw [comp_apply, Nat.add_assoc]

theorem chunk_le (off n : Nat) : off % BSIZE + min n (BSIZE - off % BSIZE) ≤ BSIZE := by
  have : off % BSIZE < BSIZE := Nat.mod_lt _ (by decide)
  omega

theorem chunk_pos (off : Nat) (hn : n ≠ 0) : 0 < min n (BSIZE - off % BSIZE) := by
  have : off % BSIZE < BSIZE := Nat.mod_lt _ (by decide)
  omega

section

variable {c : Block} (h : Image dev d cur) (hi : i < dev.sb.ninodes) (ht : (cur i).type ≠ 0)

include h

include hi ht

theorem slot_put (hk : slot d.block (cur i) k ≠ 0) (hne : k ≠ NDIRECT) (hj : j < dev.sb.ninodes)
    (htj : (cur j).type ≠ 0) :
    slot (d.put (slot d.block (cur i) k) c).block (cur j) = slot d.block (cur j) := by
  apply slot_congr
  intro hind
  refine put_block_ne fun heq => hne ?_
  rw [← @slot_ind d.block] at heq
  exact (h.slot_inj hi ht hj htj hk heq.symm).2

theorem Image.put (hk : slot d.block (cur i) k ≠ 0) (hne : k ≠ NDIRECT) :
    Image dev (d.put (slot d.block (cur i) k) c) cur := by
  have hdata := h.slot_data hi ht hk
  have hused : ∀ x < dev.sb.size, (d.put (slot d.block (cur i) k) c).used dev x = d.used dev x :=
    fun x hx => h.layout.used_put_data hdata hx
  have hrefs : refs dev.sb.ninodes (d.put (slot d.block (cur i) k) c).block cur = refs dev.sb.ninodes d.block cur := by
    funext ⟨j, k'⟩
    unfold refs
    split_ifs with hj
    · rw [slot_put h hi ht hk hne hj.1 hj.2]
    · rfl
  refine ⟨h.layout, fun x hx => ?_, ?_, h.fits⟩
  · rw [hused x (hx.trans_le (Nat.sub_le _ _))]
    exact h.system x hx
  · rw [hrefs]
    refine h.owns.congr fun x => and_congr_right fun hx => ?_
    rw [hused x hx.2]

end

theorem Wrote.put (h : Wrote dev S i cur off [] d d₁ ip₁) (hi : i < dev.sb.ninodes) (ht : (cur i).type ≠ 0)
    (hbn : addrOf d₁.block ip₁ (off / BSIZE) ≠ 0) (hlen : off % BSIZE + src.length ≤ BSIZE) :
    Wrote dev S i cur off src d
      (d₁.put (addrOf d₁.block ip₁ (off / BSIZE))
        ((d₁.block (addrOf d₁.block ip₁ (off / BSIZE))).put (off % BSIZE) src)) ip₁ := by
  generalize hd' : d₁.put _ _ = d'
  have himage := h.image
  have ht₁ : (update cur i ip₁ i).type ≠ 0 := by
    rw [update_self, h.type]
    exact ht
  have hself : update cur i ip₁ i = ip₁ := update_self ..
  have hrefs : ∀ k, refs dev.sb.ninodes d₁.block (update cur i ip₁) (i, k) = slot d₁.block ip₁ k := fun k => by
    rw [refs_eq hi ht₁, hself]
  have hdata : dev.sb.Data (addrOf d₁.block ip₁ (off / BSIZE)) := by
    have := himage.slot_data hi ht₁ (k := slotOf (off / BSIZE))
    rw [hself] at this
    exact this hbn
  have hslot : slot d'.block ip₁ = slot d₁.block ip₁ := by
    have := fun c => slot_put (c := c) himage hi ht₁ (k := slotOf (off / BSIZE)) (by rwa [hself])
      (slotOf_ne_ind _) hi ht₁
    rw [hself] at this
    rw [← hd']
    exact this _
  have haddr : ∀ bn, addrOf d'.block ip₁ bn = addrOf d₁.block ip₁ bn := fun bn => congrFun hslot _
  -- the bytes of the block and those of the others
  have hin : ∀ x, x / BSIZE = off / BSIZE → fileByte d'.block ip₁ x =
      if off % BSIZE ≤ x % BSIZE ∧ x % BSIZE < off % BSIZE + src.length then src.getD (x % BSIZE - off % BSIZE) 0
      else fileByte d₁.block ip₁ x := fun x hx => by
    unfold fileByte
    rw [haddr, hx, ← hd', put_block_self, Block.byte_put _ _ _ (Nat.mod_lt _ (by decide))]
  have hout : ∀ x, addrOf d₁.block ip₁ (x / BSIZE) ≠ 0 → x / BSIZE ≠ off / BSIZE →
      fileByte d'.block ip₁ x = fileByte d₁.block ip₁ x := fun x h0 hx => by
    unfold fileByte
    rw [haddr, ← hd', put_block_ne fun heq => hx ?_]
    have := himage.owns.inj (i, slotOf (x / BSIZE)) (i, slotOf (off / BSIZE))
    rw [hrefs, hrefs] at this
    exact slotOf_inj (Prod.mk.inj (this h0 heq)).2
  have hused : ∀ x < dev.sb.size, d'.used dev x = d₁.used dev x := fun x hx => by
    rw [← hd']
    exact himage.layout.used_put_data hdata hx
  refine ⟨?_, h.fields, fun k hk => ?_, fun k hk => ?_, fun x hx hx' => ?_, fun x hx hx' => ?_, fun x h0 hx => ?_, ?_,
    fun j hj => ?_, ?_⟩
  · have := fun c => Image.put (c := c) himage hi ht₁ (k := slotOf (off / BSIZE)) (by rwa [hself]) (slotOf_ne_ind _)
    rw [hself] at this
    rw [← hd']
    exact this _
  · rw [hslot]
    exact h.slots k hk
  · rw [hslot]
    exact h.only k hk
  · rw [haddr, (div_BSIZE hlen hx hx').1]
    exact hbn
  · obtain ⟨hdiv, hmod⟩ := div_BSIZE hlen hx hx'
    rw [hin x hdiv, if_pos (by omega), hmod, Nat.add_sub_cancel_left]
  · have hkept := h.slots _ h0
    rw [← h.outside x h0 (by rw [List.length_nil]; omega)]
    by_cases hdiv : x / BSIZE = off / BSIZE
    · rw [hin x hdiv, if_neg (fun hc => hx ?_)]
      unfold BSIZE at *
      omega
    · exact hout x (by unfold addrOf; rw [hkept]; exact h0) hdiv
  · have hspared : Spared dev i (update cur i ip₁) d₁ d' := fun j k hne hk => by
      rw [← hd', put_block_ne fun heq => hne ?_]
      have := himage.owns.inj (j, k) (i, slotOf (off / BSIZE)) hk
      rw [hrefs] at this
      exact (Prod.mk.inj (this heq)).1
    exact h.spared.trans hspared
  · rw [← hd', himage.layout.dinode_put_data hdata hj]
    exact h.dinode j hj
  · have hneed : need S d'.block ip₁ = need S d₁.block ip₁ := by
      unfold need
      rw [hslot]
    rw [hneed, free_congr hused]
    exact h.spent

def contents (blk : Nat → Block) (ip : Dinode) : List Byte := fileBytes blk ip 0 ip.size

theorem NoHoles.addr (h : NoHoles blk ip) (hx : x < ip.size) : addrOf blk ip (x / BSIZE) ≠ 0 :=
  h _ ((Nat.div_mul_le_self x BSIZE).trans_lt hx)

theorem fileBytes_congr {blk' : Nat → Block}
    (h : ∀ x, off ≤ x → x < off + n → fileByte blk' ip' x = fileByte blk ip x) :
    fileBytes blk' ip' off n = fileBytes blk ip off n := by
  apply List.map_congr_left
  intro x hx
  exact h _ (Nat.le_add_right ..) (Nat.add_lt_add_left (List.mem_range.mp hx) _)

theorem take_fileBytes {m : Nat} (h : m ≤ n) : (fileBytes blk ip off n).take m = fileBytes blk ip off m := by
  rw [← Nat.add_sub_cancel' h, fileBytes_add]
  exact List.take_left' length_fileBytes

theorem drop_contents (off : Nat) : (contents blk ip).drop off = fileBytes blk ip off (ip.size - off) := by
  unfold contents
  rcases Nat.le_total off ip.size with h | h
  · conv_lhs => rw [← Nat.add_sub_cancel' h, fileBytes_add, Nat.zero_add]
    exact List.drop_left' length_fileBytes
  · rw [Nat.sub_eq_zero_of_le h, List.drop_of_length_le (by rwa [length_fileBytes])]
    rfl

structure Written (dev : Dev) (i off : Nat) (src : List Byte) (d d' : Disk) : Prop where
  image : Image dev d' (d'.dinode dev)
  fields : d'.dinode dev i =
    { d.dinode dev i with size := max (d.dinode dev i).size (off + src.length), addrs := (d'.dinode dev i).addrs }
  holes : NoHoles d'.block (d'.dinode dev i)
  inside : ∀ x, off ≤ x → x < off + src.length → fileByte d'.block (d'.dinode dev i) x = src.getD (x - off) 0
  outside : ∀ x < (d.dinode dev i).size, ¬ (off ≤ x ∧ x < off + src.length) →
    fileByte d'.block (d'.dinode dev i) x = fileByte d.block (d.dinode dev i) x
  dinode : ∀ j < dev.sb.ninodes, j ≠ i → d'.dinode dev j = d.dinode dev j
  spared : Spared dev i (d.dinode dev) d d'
  spent : d.free dev = need (span off src.length) d.block (d.dinode dev i) + d'.free dev

theorem Wrote.same (h : Wrote dev S i cur off src d d' ip') (hneed : need S d.block (cur i) = 0) : ip' = cur i := by
  have hslot : ∀ k, slot d'.block ip' k = slot d.block (cur i) k := by
    intro k
    by_cases hk : k ∈ S
    · exact h.slots k fun h0 => Finset.filter_eq_empty_iff.mp (Finset.card_eq_zero.mp hneed) hk h0
    · exact h.only k hk
  have haddrs : ip'.addrs = (cur i).addrs := by
    funext k
    rw [← @slot_addr d'.block, hslot, slot_addr]
  rw [h.fields, haddrs]

section

variable (h : Image dev d (d.dinode dev)) (hi : i < dev.sb.ninodes) (ht : (d.dinode dev i).type ≠ 0)
  (hh : NoHoles d.block (d.dinode dev i)) (hoff : off ≤ (d.dinode dev i).size)

include hh hoff

theorem Wrote.noHoles (hw : Wrote dev S i (d.dinode dev) off src d d₁ ip₁) (ha : ip'.addrs = ip₁.addrs)
    (hsize : ip'.size = max (d.dinode dev i).size (off + src.length)) : NoHoles d₁.block ip' := by
  intro bn hbn
  unfold addrOf
  rw [slot_same_addrs ha]
  have hdiv : bn * BSIZE / BSIZE = bn := Nat.mul_div_cancel _ (by decide)
  rcases Nat.lt_or_ge (bn * BSIZE) (d.dinode dev i).size with hlt | hge
  · have h0 := hh bn hlt
    unfold addrOf at h0
    rwa [hw.slots _ h0]
  · have := hw.there (bn * BSIZE) (by omega) (by omega)
    rwa [hdiv] at this

include hi

theorem Wrote.kept (hw : Wrote dev (span off src.length) i (d.dinode dev) off src d d₁ ip₁)
    (hle : off + src.length ≤ (d.dinode dev i).size) : ip₁ = d₁.dinode dev i ∧ Written dev i off src d d₁ := by
  have hsame := hw.same (need_span fun x _ hx => hh.addr (by omega))
  have hmax : max (d.dinode dev i).size (off + src.length) = (d.dinode dev i).size := Nat.max_eq_left hle
  have hdi := hw.dinode i hi
  have himage := hw.image
  rw [hsame, update_eq_self] at himage
  have hspent := hw.spent
  rw [need_span hw.there] at hspent
  subst hsame
  refine ⟨hdi.symm, himage.congr hw.dinode, ?_, ?_, ?_, ?_, fun j hj _ => hw.dinode j hj, hw.spared, by omega⟩
  · rw [hmax, hdi]
  · rw [hdi]
    exact hw.noHoles hh hoff rfl hmax.symm
  · rw [hdi]
    exact hw.inside
  · rw [hdi]
    exact fun x hx => hw.outside x (hh.addr hx)

include h ht

theorem Wrote.grown {q : Dinode} (hw : Wrote dev (span off src.length) i (d.dinode dev) off src d d₁ ip₁)
    (hmax : off + src.length ≤ MAXFILE * BSIZE) (hlt : (d.dinode dev i).size < off + src.length)
    (hq : q = { ip₁ with size := off + src.length }) :
    q = (d₁.setDinode dev i q).dinode dev i ∧ Written dev i off src d (d₁.setDinode dev i q) := by
  have hself : update (d.dinode dev) i ip₁ i = ip₁ := update_self ..
  have ht₁ : (update (d.dinode dev) i ip₁ i).type ≠ 0 := by
    rw [hself, hw.fields]
    exact ht
  have haddrs : q.addrs = ip₁.addrs := by rw [hq]
  have hfits : q.Fits := by
    have hf := hw.image.fits i hi
    rw [hself] at hf
    rw [hq]
    exact ⟨hf.type, hf.major, hf.minor, hf.nlink, hmax.trans_lt (by decide), hf.addrs⟩
  have hslot := hw.image.slot_setDinode hi q hi ht₁
  have hdata := fun k => hw.image.slot_data hi ht₁ (k := k)
  rw [hself] at hslot hdata
  have himage := (hw.image.setDinode hi q).setFields (i := i) (by rw [hself, hq]) (by rw [hself, haddrs]) hfits
  rw [update_idem] at himage
  have hdinode : ∀ j, (d₁.setDinode dev i q).dinode dev j = _ := dinode_setDinode hfits
  have hfree : (d₁.setDinode dev i q).free dev = d₁.free dev :=
    free_congr fun x _ => hw.image.layout.used_put_inode hi x
  have hblock : ∀ x, dev.sb.Data x → (d₁.setDinode dev i q).block x = d₁.block x :=
    fun x hx => hw.image.layout.block_put_inode hi hx
  generalize d₁.setDinode dev i q = d' at *
  have hdi : d'.dinode dev i = q := (hdinode i).trans (update_self ..)
  have hne : ∀ j < dev.sb.ninodes, j ≠ i → d'.dinode dev j = d.dinode dev j := fun j hj hji => by
    rw [hdinode j, update_of_ne hji]
    exact hw.dinode j hj
  have hslot' : slot d'.block q = slot d₁.block ip₁ := (slot_same_addrs haddrs).trans hslot
  have hsize : q.size = max (d.dinode dev i).size (off + src.length) := by
    rw [hq]
    exact (Nat.max_eq_right hlt.le).symm
  -- the blocks of the file are the same before and after `iupdate`
  have hbyte : ∀ x, addrOf d₁.block ip₁ (x / BSIZE) ≠ 0 → fileByte d'.block q x = fileByte d₁.block ip₁ x := by
    intro x h0
    unfold fileByte addrOf
    rw [hslot', hblock _ (hdata _ h0)]
  have hspent := hw.spent
  rw [need_span hw.there] at hspent
  refine ⟨hdi.symm, ?_, ?_, ?_, ?_, ?_, hne, ?_, by omega⟩
  · refine himage.congr fun j hj => ?_
    rcases eq_or_ne j i with rfl | hji
    · rw [hdi, update_self]
    · rw [hne j hj hji, update_of_ne hji]
  · rw [hdi, ← hsize, hq, hw.fields]
  · rw [hdi]
    intro bn hbn
    have := hw.noHoles hh hoff haddrs hsize bn hbn
    unfold addrOf at this ⊢
    rwa [hslot', ← slot_same_addrs haddrs]
  · rw [hdi]
    exact fun x hx hx' => (hbyte x (hw.there x hx hx')).trans (hw.inside x hx hx')
  · rw [hdi]
    intro x hx hx'
    have h0 := hh.addr hx
    rw [hbyte x (by unfold addrOf at h0 ⊢; rwa [hw.slots _ h0])]
    exact hw.outside x h0 hx'
  · intro j k hji hk
    rw [← hw.spared j k hji hk]
    exact hblock _ (h.owns.mem _ hk).1

end

/-- `src` written over a byte string from `off` on. -/
def overwrite (old : List Byte) (off : Nat) (src : List Byte) : List Byte :=
  old.take off ++ src ++ old.drop (off + src.length)

theorem Written.size (h : Written dev i off src d d') :
    (d'.dinode dev i).size = max (d.dinode dev i).size (off + src.length) := by rw [h.fields]

theorem Written.contents (h : Written dev i off src d d') (hoff : off ≤ (d.dinode dev i).size) :
    contents d'.block (d'.dinode dev i) = overwrite (contents d.block (d.dinode dev i)) off src := by
  have hsize := h.size
  have hsplit : (d'.dinode dev i).size = off + src.length + ((d.dinode dev i).size - (off + src.length)) := by omega
  have hbefore : fileBytes d'.block (d'.dinode dev i) 0 off = (Blocks.contents d.block (d.dinode dev i)).take off := by
    rw [Blocks.contents, take_fileBytes hoff]
    exact fileBytes_congr fun x _ hx => h.outside x (by omega) (by omega)
  have hnew : fileBytes d'.block (d'.dinode dev i) off src.length = src := by
    refine List.ext_getElem length_fileBytes fun x hx hx' => ?_
    rw [← List.getD_eq_getElem _ 0, ← List.getD_eq_getElem _ 0, getD_fileBytes hx', h.inside _ (by omega) (by omega),
      Nat.add_sub_cancel_left]
  have hafter : fileBytes d'.block (d'.dinode dev i) (off + src.length) ((d.dinode dev i).size - (off + src.length)) =
      (Blocks.contents d.block (d.dinode dev i)).drop (off + src.length) := by
    rw [drop_contents]
    exact fileBytes_congr fun x hx hx' => h.outside x (by omega) (by omega)
  rw [Blocks.contents, hsplit, fileBytes_add, fileBytes_add, Nat.zero_add, Nat.zero_add, hbefore, hnew, hafter]
  rfl

end Xv6.Blocks
