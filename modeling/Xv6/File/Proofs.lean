import Mathlib
import Xv6.File.Code

/-!
# Reference counts of open files

Inside a call the count of a file may be off by the references that the call holds or has already
given up. `Count d` says by how much. The pipes depend on the file table alone: a file of type
`FD_PIPE` is an end, each end of a pipe is one file, and an end is open when that file exists.
-/

open Lib Cmd Function

namespace Xv6.Files

open Procs (Ptable Exit)
open Pipes (Pipe)

variable {nfile nofile nproc : Nat} {s s' : State nfile nofile nproc} {f g : Fin nfile} {p np : Fin nproc}
    {fd : Fin nofile}
  {d : Fin nfile → Int}

/-- The descriptors that point to `f`, over all processes. -/
def slots (s : State nfile nofile nproc) (f : Fin nfile) : Finset (Fin nproc × Fin nofile) :=
  Finset.univ.filter fun x => s.ofile x.1 x.2 = some f

theorem mem_slots {x : Fin nproc × Fin nofile} : x ∈ slots s f ↔ s.ofile x.1 x.2 = some f := by
  simp [slots]

theorem setOfile_apply (v : Option (Fin nfile)) (x : Fin nproc × Fin nofile) :
    (s.setOfile p fd v).ofile x.1 x.2 = if x = (p, fd) then v else s.ofile x.1 x.2 := by
  obtain ⟨q, i⟩ := x
  unfold State.setOfile
  rcases eq_or_ne q p with rfl | hq
  · simp [update_apply]
  · simp [hq]

theorem slots_clear : slots (s.setOfile p fd none) f = (slots s f).erase (p, fd) := by
  ext x
  rw [mem_slots, setOfile_apply, Finset.mem_erase, mem_slots]
  split_ifs with hx <;> simp [hx]

theorem slots_fill (h : s.ofile p fd = none) :
    slots (s.setOfile p fd (some g)) f = if g = f then insert (p, fd) (slots s f) else slots s f := by
  ext x
  rw [mem_slots, setOfile_apply]
  split_ifs with hx hg hg <;> simp_all [mem_slots]

def Count (d : Fin nfile → Int) (s : State nfile nofile nproc) : Prop :=
  ∀ f, ((s.file f).ref : Int) = (slots s f).card + d f

theorem Count.clear (h : Count d s) (hg : s.ofile p fd = some g) :
    Count (d + Pi.single g 1) (s.setOfile p fd none) := by
  intro f
  have hf := h f
  rw [slots_clear, Pi.add_apply]
  rcases eq_or_ne f g with rfl | hne
  · have hmem : (p, fd) ∈ slots s f := mem_slots.mpr hg
    have hcard := Finset.card_erase_add_one hmem
    rw [Pi.single_eq_same]
    change ((s.file f).ref : Int) = _
    omega
  · have hmem : (p, fd) ∉ slots s f := fun hm => hne (Option.some.inj ((mem_slots.mp hm).symm.trans hg))
    rw [Finset.erase_eq_of_notMem hmem, Pi.single_eq_of_ne hne, add_zero]
    exact hf

theorem Count.fill (h : Count d s) (hnone : s.ofile p fd = none) :
    Count (d - Pi.single g 1) (s.setOfile p fd (some g)) := by
  intro f
  have hf := h f
  rw [slots_fill hnone, Pi.sub_apply]
  rcases eq_or_ne f g with rfl | hne
  · have hmem : (p, fd) ∉ slots s f := fun hm => by
      rw [mem_slots, hnone] at hm
      cases hm
    rw [if_pos rfl, Finset.card_insert_of_notMem hmem, Pi.single_eq_same]
    change ((s.file f).ref : Int) = _
    push_cast
    omega
  · rw [if_neg hne.symm, Pi.single_eq_of_ne hne, sub_zero]
    exact hf

theorem Count.setRef (h : Count d s) (v : File) (k : Int) (hv : (v.ref : Int) = (s.file f).ref + k) :
    Count (d + Pi.single f k) (s.setFile f v) := by
  intro g
  change ((update s.file f v g).ref : Int) = (slots s g).card + _
  have hg := h g
  rw [Pi.add_apply]
  rcases eq_or_ne g f with rfl | hne
  · rw [update_self, Pi.single_eq_same]
    omega
  · rw [update_of_ne hne, Pi.single_eq_of_ne hne, add_zero]
    exact hg

theorem Count.pos_of_slot (h : Count 0 s) (hg : s.ofile p fd = some f) : 1 ≤ (s.file f).ref := by
  have hcard := Finset.card_pos.mpr ⟨_, mem_slots (x := (p, fd)) |>.mpr hg⟩
  have hf := h f
  simp only [Pi.zero_apply] at hf
  omega

theorem Count.pos_of_held (h : Count d s) (hd : 1 ≤ d f) : 1 ≤ (s.file f).ref := by
  have hf := h f
  omega

/-- No page is allocated while it is in use or freed while it is not. -/
def Sound : List Event → Prop
  | [] => True
  | .kalloc pg :: l => inUse pg l = false ∧ Sound l
  | .kfree pg :: l => inUse pg l = true ∧ Sound l

theorem inUse_kalloc (pg q : Page) (l : List Event) : inUse q (.kalloc pg :: l) = true ↔ q = pg ∨ inUse q l = true := by
  rcases eq_or_ne pg q with rfl | h
  · simp [inUse]
  · simp [inUse, h, h.symm]

theorem inUse_kfree (pg q : Page) (l : List Event) : inUse q (.kfree pg :: l) = true ↔ q ≠ pg ∧ inUse q l = true := by
  rcases eq_or_ne pg q with rfl | h
  · simp [inUse]
  · simp [inUse, h, h.symm]

/-- `f` is the read end or, with `w`, the write end of the pipe in `pg`. -/
def IsEnd (s : State nfile nofile nproc) (pg : Page) (w : Bool) (f : Fin nfile) : Prop :=
  (s.file f).type = .pipe ∧ (s.file f).pipe = pg ∧ (s.file f).writable = w

def opened (p : Pipe) (w : Bool) : Bool := if w then p.writeopen else p.readopen

structure Ends (s : State nfile nofile nproc) : Prop where
  none : ∀ f, (s.file f).ref = 0 → (s.file f).type = .none
  live : ∀ pg w f, IsEnd s pg w f → inUse pg s.heap = true
  inj : ∀ pg w f g, IsEnd s pg w f → IsEnd s pg w g → f = g
  opened : ∀ pg w, inUse pg s.heap = true → (opened (s.pipe pg) w = true ↔ ∃ f, IsEnd s pg w f)
  used : ∀ pg, inUse pg s.heap = true → ∃ w f, IsEnd s pg w f
  sound : Sound s.heap

theorem init_ends (h : Init s) : Ends s := by
  have hno : ∀ pg w f, ¬ IsEnd s pg w f := fun pg w f he => by
    rw [IsEnd, (h.file f).2] at he
    exact absurd he.1 (by simp)
  have huse : ∀ pg, inUse pg s.heap = false := fun pg => by rw [h.heap]; rfl
  refine ⟨fun f _ => (h.file f).2, fun pg w f he => absurd he (hno pg w f), fun pg w f g he => absurd he (hno pg w f),
    fun pg w hu => ?_, fun pg hu => ?_, by rw [h.heap]; trivial⟩
  · rw [huse] at hu
    cases hu
  · rw [huse] at hu
    cases hu

theorem Ends.frame (h : Ends s) (hnone : ∀ f, (s'.file f).ref = 0 → (s'.file f).type = .none)
    (hend : ∀ pg w f, IsEnd s' pg w f ↔ IsEnd s pg w f) (hpipe : s'.pipe = s.pipe) (hheap : s'.heap = s.heap) :
    Ends s' := by
  refine ⟨hnone, fun pg w f he => ?_, fun pg w f g hf hg => ?_, fun pg w hu => ?_, fun pg hu => ?_, ?_⟩
  · rw [hheap]
    exact h.live pg w f ((hend pg w f).mp he)
  · exact h.inj pg w f g ((hend pg w f).mp hf) ((hend pg w g).mp hg)
  · rw [hheap] at hu
    rw [hpipe, h.opened pg w hu]
    exact exists_congr fun f => (hend pg w f).symm
  · rw [hheap] at hu
    obtain ⟨w, f, he⟩ := h.used pg hu
    exact ⟨w, f, (hend pg w f).mpr he⟩
  · rw [hheap]
    exact h.sound

theorem isEnd_setFile (v : File) (pg : Page) (w : Bool) : IsEnd (s.setFile f v) pg w g ↔
    if g = f then v.type = .pipe ∧ v.pipe = pg ∧ v.writable = w else IsEnd s pg w g := by
  unfold IsEnd State.setFile
  rcases eq_or_ne g f with rfl | hg
  · simp
  · simp [hg]

theorem Ends.setFile (h : Ends s) (v : File) (hv : v.ref = 0 → v.type = .none)
    (hend : (v.type, v.pipe, v.writable) = ((s.file f).type, (s.file f).pipe, (s.file f).writable) ∨
      v.type ≠ .pipe ∧ (s.file f).type ≠ .pipe) : Ends (s.setFile f v) := by
  refine h.frame (fun g hg => ?_) (fun pg w g => ?_) rfl rfl
  · unfold State.setFile at hg ⊢
    rcases eq_or_ne g f with rfl | hne
    · simp only [update_self] at hg ⊢
      exact hv hg
    · simp only [update_of_ne hne] at hg ⊢
      exact h.none g hg
  · rw [isEnd_setFile]
    split_ifs with hg
    · subst hg
      unfold IsEnd
      rcases hend with he | ⟨hv', hf⟩
      · simp only [Prod.mk.injEq] at he
        rw [he.1, he.2.1, he.2.2]
      · simp [hv', hf]
    · rfl

/-- What `fileclose` does to the last reference of an end: the file is no end any more, the flag of its end is cleared,
and the page is freed when the other flag is clear. -/
structure Closed (s s' : State nfile nofile nproc) (f : Fin nfile) (pg : Page) (w : Bool) : Prop where
  none : ∀ g, (s'.file g).ref = 0 → (s'.file g).type = .none
  ends : ∀ pg' w' g, IsEnd s' pg' w' g ↔ g ≠ f ∧ IsEnd s pg' w' g
  other : ∀ q, q ≠ pg → s'.pipe q = s.pipe q
  heap : Files.opened (s.pipe pg) (!w) = true ∧ s'.heap = s.heap ∧ Files.opened (s'.pipe pg) w = false ∧
      Files.opened (s'.pipe pg) (!w) = true ∨
    Files.opened (s.pipe pg) (!w) = false ∧ s'.heap = .kfree pg :: s.heap

theorem Ends.close {pg : Page} {w : Bool} (h : Ends s) (hf : IsEnd s pg w f) (hc : Closed s s' f pg w) : Ends s' := by
  have hlive := h.live pg w f hf
  -- `f` is an end of no other pipe, and the only one of its kind.
  have hother : ∀ pg' w' g, (pg', w') ≠ (pg, w) → (IsEnd s' pg' w' g ↔ IsEnd s pg' w' g) := by
    intro pg' w' g hne
    rw [hc.ends, and_iff_right_iff_imp]
    rintro hg rfl
    exact hne (by rw [← hg.2.1, ← hg.2.2, hf.2.1, hf.2.2])
  have hself : ∀ g, ¬ IsEnd s' pg w g := fun g hg =>
    ((hc.ends pg w g).mp hg).1 (h.inj pg w g f ((hc.ends pg w g).mp hg).2 hf)
  have hnew : ∀ pg' w' g, IsEnd s' pg' w' g → IsEnd s pg' w' g := fun pg' w' g hg => ((hc.ends pg' w' g).mp hg).2
  have hinj : ∀ pg' w' f' g, IsEnd s' pg' w' f' → IsEnd s' pg' w' g → f' = g := fun pg' w' f' g hf' hg =>
    h.inj pg' w' f' g (hnew _ _ _ hf') (hnew _ _ _ hg)
  rcases hc.heap with ⟨hop, hheap, hcl, hop'⟩ | ⟨hcl, hheap⟩
  · refine ⟨hc.none, fun pg' w' g hg => ?_, hinj, fun pg' w' hu => ?_, fun pg' hu => ?_, ?_⟩
    · rw [hheap]
      exact h.live pg' w' g (hnew _ _ _ hg)
    · rw [hheap] at hu
      rcases eq_or_ne pg' pg with rfl | hpg
      · rcases Bool.eq_or_eq_not w' w with rfl | rfl
        · simp [hcl, hself]
        · obtain ⟨g, hg⟩ := (h.opened pg' (!w) hu).mp hop
          exact iff_of_true hop' ⟨g, (hother pg' (!w) g (by simp)).mpr hg⟩
      · rw [hc.other pg' hpg, h.opened pg' w' hu]
        exact exists_congr fun g => (hother pg' w' g (by simp [hpg])).symm
    · rw [hheap] at hu
      rcases eq_or_ne pg' pg with rfl | hpg
      · obtain ⟨g, hg⟩ := (h.opened pg' (!w) hu).mp hop
        exact ⟨!w, g, (hother pg' (!w) g (by simp)).mpr hg⟩
      · obtain ⟨w', g, hg⟩ := h.used pg' hu
        exact ⟨w', g, (hother pg' w' g (by simp [hpg])).mpr hg⟩
    · rw [hheap]
      exact h.sound
  · have hgone : ∀ w' g, ¬ IsEnd s' pg w' g := by
      intro w' g hg
      rcases Bool.eq_or_eq_not w' w with rfl | rfl
      · exact hself g hg
      · rw [(h.opened pg (!w) hlive).mpr ⟨g, hnew _ _ _ hg⟩] at hcl
        cases hcl
    refine ⟨hc.none, fun pg' w' g hg => ?_, hinj, fun pg' w' hu => ?_, fun pg' hu => ?_, ?_⟩
    · rw [hheap, inUse_kfree]
      refine ⟨?_, h.live pg' w' g (hnew _ _ _ hg)⟩
      rintro rfl
      exact hgone w' g hg
    · rw [hheap, inUse_kfree] at hu
      rw [hc.other pg' hu.1, h.opened pg' w' hu.2]
      exact exists_congr fun g => (hother pg' w' g (by simp [hu.1])).symm
    · rw [hheap, inUse_kfree] at hu
      obtain ⟨w', g, hg⟩ := h.used pg' hu.2
      exact ⟨w', g, (hother pg' w' g (by simp [hu.1])).mpr hg⟩
    · rw [hheap]
      exact ⟨hlive, h.sound⟩

theorem Ends.pipe {pg : Page} (h : Ends s) (hfg : f ≠ g) (hf : (s.file f).type = .none) (hg : (s.file g).type = .none)
    (hpg : inUse pg s.heap = false) (hnone : ∀ x, (s'.file x).ref = 0 → (s'.file x).type = .none)
    (hread : IsEnd s' pg false f) (hwrite : IsEnd s' pg true g)
    (hrest : ∀ x, x ≠ f → x ≠ g → s'.file x = s.file x) (hpipe : ∀ w, Files.opened (s'.pipe pg) w = true)
    (hother : ∀ q, q ≠ pg → s'.pipe q = s.pipe q) (hheap : s'.heap = .kalloc pg :: s.heap) : Ends s' := by
  -- The new pipe has these two ends, and the others are as before.
  have hnew : ∀ w x, IsEnd s' pg w x → x = if w then g else f := by
    intro w x hx
    rcases eq_or_ne x f with rfl | hxf
    · rw [← hx.2.2, hread.2.2]
      rfl
    rcases eq_or_ne x g with rfl | hxg
    · rw [← hx.2.2, hwrite.2.2]
      rfl
    · rw [IsEnd, hrest x hxf hxg] at hx
      rw [h.live pg w x hx] at hpg
      cases hpg
  have hold : ∀ q w x, q ≠ pg → (IsEnd s' q w x ↔ IsEnd s q w x) := by
    intro q w x hq
    rcases eq_or_ne x f with rfl | hxf
    · refine iff_of_false (fun hx => hq ?_) fun hx => ?_
      · rw [← hx.2.1, hread.2.1]
      · rw [IsEnd, hf] at hx
        exact absurd hx.1 (by simp)
    rcases eq_or_ne x g with rfl | hxg
    · refine iff_of_false (fun hx => hq ?_) fun hx => ?_
      · rw [← hx.2.1, hwrite.2.1]
      · rw [IsEnd, hg] at hx
        exact absurd hx.1 (by simp)
    · rw [IsEnd, IsEnd, hrest x hxf hxg]
  have hends : ∀ w, ∃ x, IsEnd s' pg w x
    | false => ⟨f, hread⟩
    | true => ⟨g, hwrite⟩
  refine ⟨hnone, fun q w x hx => ?_, fun q w x y hx hy => ?_, fun q w hu => ?_, fun q hu => ?_, ?_⟩
  · rw [hheap, inUse_kalloc]
    rcases eq_or_ne q pg with rfl | hq
    · exact .inl rfl
    · exact .inr (h.live q w x ((hold q w x hq).mp hx))
  · rcases eq_or_ne q pg with rfl | hq
    · rw [hnew w x hx, hnew w y hy]
    · exact h.inj q w x y ((hold q w x hq).mp hx) ((hold q w y hq).mp hy)
  · rcases eq_or_ne q pg with rfl | hq
    · exact iff_of_true (hpipe w) (hends w)
    · rw [hheap, inUse_kalloc] at hu
      rw [hother q hq, h.opened q w (hu.resolve_left hq)]
      exact exists_congr fun x => (hold q w x hq).symm
  · rcases eq_or_ne q pg with rfl | hq
    · exact ⟨false, hends false⟩
    · rw [hheap, inUse_kalloc] at hu
      obtain ⟨w, x, hx⟩ := h.used q (hu.resolve_left hq)
      exact ⟨w, x, (hold q w x hq).mpr hx⟩
  · rw [hheap]
    exact ⟨hpg, h.sound⟩

structure Inv (d : Fin nfile → Int) (s : State nfile nofile nproc) : Prop where
  count : Count d s
  ends : Ends s
  idle : ∀ p, (s.proc p).state = .unused ∨ (s.proc p).state = .zombie → ∀ fd, s.ofile p fd = none

structure Same (s s' : State nfile nofile nproc) : Prop where
  ofile : s'.ofile = s.ofile
  proc : s'.proc = s.proc
  initproc : s'.initproc = s.initproc

theorem Same.trans {s₁ s₂ : State nfile nofile nproc} (h : Same s s₁) (h' : Same s₁ s₂) : Same s s₂ :=
  ⟨h'.ofile.trans h.ofile, h'.proc.trans h.proc, h'.initproc.trans h.initproc⟩

theorem Inv.idle_of_same (h : Inv d s) (hs : Same s s') :
    ∀ p, (s'.proc p).state = .unused ∨ (s'.proc p).state = .zombie → ∀ fd, s'.ofile p fd = none := by
  rw [hs.proc, hs.ofile]
  exact h.idle

theorem Inv.clear (h : Inv d s) (hg : s.ofile p fd = some g) : Inv (d + Pi.single g 1) (s.setOfile p fd none) := by
  refine ⟨h.count.clear hg, ⟨h.ends.none, h.ends.live, h.ends.inj, h.ends.opened, h.ends.used, h.ends.sound⟩,
    fun q hq i => ?_⟩
  rw [setOfile_apply none (q, i)]
  split_ifs
  · rfl
  · exact h.idle q hq i

theorem Inv.fill (h : Inv d s) (hnone : s.ofile p fd = none)
    (hp : (s.proc p).state ≠ .unused ∧ (s.proc p).state ≠ .zombie) :
    Inv (d - Pi.single g 1) (s.setOfile p fd (some g)) := by
  refine ⟨h.count.fill hnone, ⟨h.ends.none, h.ends.live, h.ends.inj, h.ends.opened, h.ends.used, h.ends.sound⟩,
    fun q hq i => ?_⟩
  rw [setOfile_apply (some g) (q, i)]
  split_ifs with hx
  · obtain rfl := congrArg Prod.fst hx
    exact absurd hq (not_or.mpr hp)
  · exact h.idle q hq i

theorem filealloc_spec (h : Inv d s) : wp filealloc (fun r s' => match r with
    | none => s' = s
    | some f => (s.file f).ref = 0 ∧ Inv (d + Pi.single f 1) s' ∧ Same s s' ∧ s'.heap = s.heap ∧ (s'.file f).ref = 1 ∧
        (s'.file f).type = .none ∧ ∀ g, g ≠ f → s'.file g = s.file g) (fun _ _ => False) s := by
  unfold filealloc
  rw [wp_bind, wp_get]
  split
  · rename_i f hfind
    have href : (s.file f).ref = 0 := by simpa using List.find?_some hfind
    have htype := h.ends.none f href
    rw [wp_bind, wp_modify, wp_pure]
    refine ⟨href, ⟨?_, ?_, h.idle⟩, ⟨rfl, rfl, rfl⟩, rfl, ?_, ?_, fun g hg => update_of_ne hg ..⟩
    · exact h.count.setRef _ 1 (by simp [href])
    · exact h.ends.setFile _ (by simp) (.inl rfl)
    · simp [State.setFile]
    · simp [State.setFile, htype]
  · rw [wp_pure]

theorem filedup_spec (h : Inv d s) (hf : 1 ≤ (s.file f).ref) :
    wp (filedup f) (fun _ s' => Inv (d + Pi.single f 1) s' ∧ Same s s' ∧ s'.heap = s.heap) (fun _ _ => False) s := by
  unfold filedup
  rw [wp_bind, wp_get, if_neg (by omega), wp_modify]
  refine ⟨⟨h.count.setRef _ 1 (by simp), h.ends.setFile _ (by simp) (.inl rfl), h.idle⟩, ⟨rfl, rfl, rfl⟩, rfl⟩

def FreesOne (s s' : State nfile nofile nproc) : Prop := s'.heap = s.heap ∨ ∃ pg, s'.heap = .kfree pg :: s.heap

theorem opened_close (v : Pipe) (w : Bool) :
    let v' := if w then { v with writeopen := false } else { v with readopen := false }
    opened v' w = false ∧ opened v' (!w) = opened v (!w) ∧ (v'.readopen = false ∧ v'.writeopen = false ↔
      opened v (!w) = false) := by
  cases w <;> simp [opened]

theorem pipeclose_spec (s : State nfile nofile nproc) (pg : Page) (w : Bool) :
    wp (pipeclose pg w) (fun _ s' => s'.file = s.file ∧
    Same s s' ∧ (∀ q, q ≠ pg → s'.pipe q = s.pipe q) ∧
    (opened (s.pipe pg) (!w) = true ∧ s'.heap = s.heap ∧ opened (s'.pipe pg) w = false ∧ opened (s'.pipe pg)
      (!w) = true ∨
      opened (s.pipe pg) (!w) = false ∧ s'.heap = .kfree pg :: s.heap)) (fun _ _ => False) s := by
  obtain ⟨hcl, hop, hboth⟩ := opened_close (s.pipe pg) w
  unfold pipeclose
  rw [wp_bind, wp_get]
  generalize (if w then _ else _ : Pipe) = v at hcl hop hboth ⊢
  have hpipe : (s.setPipe pg v).pipe pg = v := update_self ..
  have hother : ∀ q, q ≠ pg → (s.setPipe pg v).pipe q = s.pipe q := fun q hq => update_of_ne hq ..
  rw [wp_bind, wp_modify]
  split_ifs with hfree
  · rw [wp_modify]
    exact ⟨rfl, ⟨rfl, rfl, rfl⟩, fun q hq => (update_of_ne hq ..).trans (hother q hq), .inr ⟨hboth.mp hfree, rfl⟩⟩
  · rw [wp_pure, hpipe]
    have hopen := Bool.eq_true_of_not_eq_false fun he => hfree (hboth.mpr he)
    exact ⟨rfl, ⟨rfl, rfl, rfl⟩, hother, .inl ⟨hopen, rfl, hcl, hop.trans hopen⟩⟩

theorem fileclose_spec (h : Inv d s) (hf : 1 ≤ (s.file f).ref) :
    wp (fileclose f) (fun _ s' => Inv (d - Pi.single f 1) s' ∧ Same s s' ∧ FreesOne s s') (fun _ _ => False) s := by
  have hd : d - Pi.single f 1 = d + Pi.single f (-1) := by
    ext g
    rcases eq_or_ne g f with rfl | hg
    · simp [sub_eq_add_neg]
    · simp [hg]
  unfold fileclose
  rw [wp_bind, wp_get]
  rw [if_neg (by omega), hd]
  split_ifs with hmore
  · rw [wp_modify]
    refine ⟨⟨h.count.setRef _ (-1) ?_, h.ends.setFile _ (by dsimp only; omega) (.inl rfl), h.idle⟩,
      ⟨rfl, rfl, rfl⟩, .inl rfl⟩
    dsimp only
    omega
  · have href : (s.file f).ref = 1 := by omega
    have hcount : Count (d + Pi.single f (-1)) (s.setFile f { s.file f with ref := 0, type := .none }) :=
      h.count.setRef _ (-1) (by simp [href])
    have hends : ∀ pg w g, IsEnd (s.setFile f { s.file f with ref := 0, type := .none }) pg w g ↔ g ≠ f ∧
      IsEnd s pg w g := by
      intro pg w g
      rw [isEnd_setFile]
      split_ifs with hg <;> simp [hg]
    have hnone : ∀ g, ((s.setFile f { s.file f with ref := 0, type := .none }).file g).ref = 0 →
        ((s.setFile f { s.file f with ref := 0, type := .none }).file g).type = .none := by
      intro g hg
      dsimp only [State.setFile] at hg ⊢
      rcases eq_or_ne g f with rfl | hne
      · rw [update_self]
      · rw [update_of_ne hne] at hg ⊢
        exact h.ends.none g hg
    rw [wp_bind, wp_modify]
    split
    · rename_i htype
      refine wp_mono _ _ _ _ _ _ (pipeclose_spec _ _ _) (fun _ s' hs' => ?_) fun _ _ he => he
      obtain ⟨hfile, hsame, hother, hheap⟩ := hs'
      have hsame' : Same s s' := ⟨hsame.ofile, hsame.proc, hsame.initproc⟩
      have hend : IsEnd s (s.file f).pipe (s.file f).writable f := ⟨htype, rfl, rfl⟩
      refine ⟨⟨?_, h.ends.close hend ⟨?_, ?_, hother, hheap⟩, h.idle_of_same hsame'⟩, hsame', ?_⟩
      · intro g
        rw [hfile, slots, hsame.ofile]
        exact hcount g
      · rw [hfile]
        exact hnone
      · intro pg w g
        rw [IsEnd, hfile]
        exact hends pg w g
      · rcases hheap with ⟨-, hheap, -⟩ | ⟨-, hheap⟩
        · exact .inl hheap
        · exact .inr ⟨_, hheap⟩
    all_goals
      rename_i htype
      rw [wp_pure]
      exact ⟨⟨hcount, h.ends.setFile _ (by simp) (.inr ⟨by simp, by simp [htype]⟩), h.idle⟩, ⟨rfl, rfl, rfl⟩, .inl rfl⟩

theorem fdalloc_spec (s : State nfile nofile nproc) (p : Fin nproc) (f : Fin nfile) :
    wp (fdalloc p f) (fun r s' => match r with
    | none => s' = s
    | some fd => s.ofile p fd = none ∧ s' = s.setOfile p fd (some f)) (fun _ _ => False) s := by
  unfold fdalloc
  rw [wp_bind, wp_get]
  split
  · rename_i fd hfind
    rw [wp_bind, wp_modify, wp_pure]
    exact ⟨by simpa using List.find?_some hfind, rfl⟩
  · rw [wp_pure]

theorem argfd_spec (s : State nfile nofile nproc) (p : Fin nproc) (fd : Option Int) :
    wp (argfd p fd) (fun r s' => s' = s ∧ ∀ i f, r = some (i, f) → s.ofile p i = some f) (fun _ _ => False) s := by
  unfold argfd
  rw [wp_bind, wp_get]
  rcases fd with _ | fd
  · exact ⟨rfl, nofun⟩
  · dsimp only
    split_ifs with hfd
    · rw [wp_pure]
      refine ⟨rfl, fun i f he => ?_⟩
      obtain ⟨g, hg, he⟩ := Option.map_eq_some_iff.mp he
      cases he
      exact hg
    · exact ⟨rfl, nofun⟩

theorem fileclose_held (h : Inv (d + Pi.single f 1) s) (hd : 0 ≤ d f) :
    wp (fileclose f) (fun _ s' => Inv d s' ∧ Same s s') (fun _ _ => False) s := by
  have hpos := h.count.pos_of_held (f := f) (by simpa using hd)
  refine wp_mono _ _ _ _ _ _ (fileclose_spec h hpos) (fun _ s' hs' => ⟨?_, hs'.2.1⟩) fun _ _ he => he
  rw [add_sub_cancel_right] at hs'
  exact hs'.1

theorem pipealloc_spec (h : Inv 0 s) (mem : Option Page) (hmem : ∀ pg, mem = some pg → inUse pg s.heap = false) :
    wp (pipealloc mem) (fun r s' => Same s s' ∧ match r with
      | none => Inv 0 s'
      | some (rf, wf) => Inv (Pi.single rf 1 + Pi.single wf 1) s') (fun _ _ => False) s := by
  unfold pipealloc
  refine wp_seq (filealloc_spec h) ?_
  rintro (_ | f0) s₁ h₁
  · obtain rfl := h₁
    exact ⟨⟨rfl, rfl, rfl⟩, h⟩
  obtain ⟨-, h₁, hs₁, hheap₁, href₁, htype₁, -⟩ := h₁
  refine wp_seq (filealloc_spec h₁) ?_
  rintro (_ | f1) s₂ h₂
  · obtain rfl := h₂
    refine wp_seq (fileclose_held h₁ le_rfl) fun _ s₃ h₃ => ?_
    exact ⟨hs₁.trans h₃.2, h₃.1⟩
  obtain ⟨href₂, h₂, hs₂, hheap₂, hone₂, htype₂, hrest₂⟩ := h₂
  have hne : f0 ≠ f1 := by
    rintro rfl
    omega
  rw [zero_add] at h₂
  rcases mem with _ | pg
  · have h₂' : Inv (Pi.single f1 1 + Pi.single f0 1) s₂ := by rwa [add_comm]
    refine wp_seq (fileclose_held h₂' (by simp [hne])) fun _ s₃ h₃ => ?_
    have h₃' : Inv (0 + Pi.single f1 1) s₃ := by rw [zero_add]; exact h₃.1
    refine wp_seq (fileclose_held h₃' le_rfl) fun _ s₄ h₄ => ?_
    exact ⟨((hs₁.trans hs₂).trans h₃.2).trans h₄.2, h₄.1⟩
  · have hpg : inUse pg s₂.heap = false := by rw [hheap₂, hheap₁]; exact hmem pg rfl
    have htype0 : (s₂.file f0).type = .none := by rw [hrest₂ f0 hne, htype₁]
    have href0 : (s₂.file f0).ref = 1 := by rw [hrest₂ f0 hne, href₁]
    simp only [wp_bind, wp_modify, wp_pure]
    generalize he : State.setFile _ f1 _ = s₃
    have hfile1 : s₃.file f1 = { s₂.file f1 with type := .pipe, readable := false, writable := true, pipe := pg } := by
      rw [← he]
      simp [State.setFile, State.setPipe, hne.symm]
    have hfile0 : s₃.file f0 = { s₂.file f0 with type := .pipe, readable := true, writable := false, pipe := pg } := by
      rw [← he]
      simp [State.setFile, State.setPipe, hne]
    have hfile : ∀ x, x ≠ f0 → x ≠ f1 → s₃.file x = s₂.file x := fun x h0 h1 => by
      rw [← he]
      simp [State.setFile, State.setPipe, h0, h1]
    have href : ∀ x, (s₃.file x).ref = (s₂.file x).ref := by
      intro x
      rcases eq_or_ne x f0 with rfl | h0
      · rw [hfile0]
      rcases eq_or_ne x f1 with rfl | h1
      · rw [hfile1]
      · rw [hfile x h0 h1]
    have hs₃ : Same s₂ s₃ := by
      rw [← he]
      exact ⟨rfl, rfl, rfl⟩
    refine ⟨(hs₁.trans hs₂).trans hs₃,
      ⟨fun x => ?_, h₂.ends.pipe hne htype0 htype₂ hpg (fun x hx => ?_) ?_ ?_ hfile (fun w => ?_)
      (fun q hq => ?_) ?_, h₂.idle_of_same hs₃⟩⟩
    · rw [href, slots, hs₃.ofile]
      exact h₂.count x
    · rw [href] at hx
      rcases eq_or_ne x f0 with rfl | h0
      · omega
      rcases eq_or_ne x f1 with rfl | h1
      · omega
      · rw [hfile x h0 h1]
        exact h₂.ends.none x hx
    · rw [IsEnd, hfile0]
      exact ⟨rfl, rfl, rfl⟩
    · rw [IsEnd, hfile1]
      exact ⟨rfl, rfl, rfl⟩
    · rw [← he]
      cases w <;> simp [State.setFile, State.setPipe, opened]
    · rw [← he]
      simp [State.setFile, State.setPipe, hq]
    · rw [← he]
      rfl

theorem live_ne {st : Procs.ProcState} (h : st.live = true) : st ≠ .unused ∧ st ≠ .zombie := by
  cases st <;> simp_all [Procs.ProcState.live]

variable (h : Inv 0 s)

section

include h

theorem sys_dup_spec (hp : (s.proc p).state.live = true) (fd : Option Int) :
    wp (sys_dup p fd) (fun _ s' => Inv 0 s') (fun _ _ => False) s := by
  unfold sys_dup
  refine wp_seq (argfd_spec s p fd) ?_
  rintro (_ | ⟨i, f⟩) s₁ ⟨rfl, hf⟩
  · exact h
  refine wp_seq (fdalloc_spec s₁ p f) ?_
  rintro (_ | fd) s₂ h₂
  · obtain rfl := h₂
    exact h
  obtain ⟨hnone, rfl⟩ := h₂
  -- The descriptor is there before the count.
  have hpos := h.count.pos_of_slot (hf i f rfl)
  refine wp_seq (filedup_spec (h.fill hnone (live_ne hp)) hpos) fun _ s₃ h₃ => ?_
  rw [sub_add_cancel] at h₃
  exact h₃.1

theorem clear_fileclose (hf : s.ofile p fd = some f) :
    wp (fileclose f) (fun _ s' => Inv 0 s' ∧ FreesOne s s') (fun _ _ => False) (s.setOfile p fd none) := by
  have h₁ := h.clear hf
  have hpos : 1 ≤ ((s.setOfile p fd none).file f).ref := h.count.pos_of_slot hf
  refine wp_mono _ _ _ _ _ _ (fileclose_spec h₁ hpos) (fun _ s' hs' => ⟨?_, hs'.2.2⟩) fun _ _ he => he
  rw [add_sub_cancel_right] at hs'
  exact hs'.1

theorem sys_close_spec (fd : Option Int) :
    wp (sys_close p fd) (fun _ s' => Inv 0 s' ∧ FreesOne s s') (fun _ _ => False) s := by
  unfold sys_close
  refine wp_seq (argfd_spec s p fd) ?_
  rintro (_ | ⟨i, f⟩) s₁ ⟨rfl, hf⟩
  · exact ⟨h, .inl rfl⟩
  rw [wp_bind, wp_modify]
  exact wp_seq (clear_fileclose h (hf i f rfl)) fun _ s₂ h₂ => h₂

theorem sys_open_spec (hp : (s.proc p).state.live = true) (omode : Option Nat) (found : Option Found) :
    wp (sys_open p omode found) (fun _ s' => Inv 0 s') (fun _ _ => False) s := by
  unfold sys_open
  rcases omode with _ | omode
  · exact h
  rcases found with _ | ip
  · exact h
  dsimp only
  split_ifs with hdir
  · exact h
  refine wp_seq (filealloc_spec h) ?_
  rintro (_ | f) s₁ h₁
  · obtain rfl := h₁
    exact h
  obtain ⟨-, h₁, hs₁, -, href, htype, -⟩ := h₁
  refine wp_seq (fdalloc_spec s₁ p f) ?_
  rintro (_ | fd) s₂ h₂
  · -- The file has no type yet, so closing it drops nothing else.
    obtain rfl := h₂
    exact wp_seq (fileclose_held h₁ le_rfl) fun _ s₃ h₃ => h₃.1
  obtain ⟨hnone, rfl⟩ := h₂
  have hp₁ : (s₁.proc p).state.live = true := by rwa [hs₁.proc]
  have h₂ := h₁.fill (g := f) hnone (live_ne hp₁)
  rw [add_sub_cancel_right] at h₂
  simp only [wp_bind, wp_modify, wp_pure]
  refine ⟨?_, h₂.ends.setFile _ (fun h0 => ?_) (.inr ⟨by simp, ?_⟩), h₂.idle⟩
  · have := h₂.count.setRef (f := f) { (s₁.setOfile p fd (some f)).file f with
      type := .inode, ip := ip.ip, off := 0, readable := omode &&& O_WRONLY = 0,
      writable := omode &&& O_WRONLY ≠ 0 ∨ omode &&& O_RDWR ≠ 0 } 0 (by simp)
    simpa using this
  · exact absurd (h0.symm.trans href) (by simp)
  · change (s₁.file f).type ≠ .pipe
    rw [htype]
    simp

theorem sys_pipe_spec (hp : (s.proc p).state.live = true) (ok : Bool) (mem : Option Page)
    (hmem : ∀ pg, mem = some pg → inUse pg s.heap = false) :
    wp (sys_pipe p ok mem) (fun _ s' => Inv 0 s') (fun _ _ => False) s := by
  unfold sys_pipe
  split_ifs with hok
  · exact h
  refine wp_seq (pipealloc_spec h mem hmem) ?_
  rintro (_ | ⟨rf, wf⟩) s₁ ⟨hs₁, h₁⟩
  · exact h₁
  have hp₁ : (s₁.proc p).state.live = true := by rwa [hs₁.proc]
  -- Both files are closed while the call holds one reference to each.
  have hclose : ∀ s₂ : State nfile nofile nproc, Inv (Pi.single wf 1 + Pi.single rf 1) s₂ →
      wp (do fileclose rf; fileclose wf; pure (-1 : Int)) (fun _ s' => Inv 0 s') (fun _ _ => False) s₂ := by
    intro s₂ h₂
    have hrf : (0 : Int) ≤ (Pi.single wf 1 : Fin nfile → Int) rf := by
      rcases eq_or_ne rf wf with rfl | hne
      · simp
      · simp [hne]
    refine wp_seq (fileclose_held h₂ hrf) fun _ s₃ h₃ => ?_
    have h₃' : Inv (0 + Pi.single wf 1) s₃ := by rw [zero_add]; exact h₃.1
    exact wp_seq (fileclose_held h₃' le_rfl) fun _ s₄ h₄ => h₄.1
  refine wp_seq (fdalloc_spec s₁ p rf) ?_
  rintro (_ | fd0) s₂ h₂
  · obtain rfl := h₂
    exact hclose s₂ (by rwa [add_comm])
  obtain ⟨hnone, rfl⟩ := h₂
  have h₂ := h₁.fill (g := rf) hnone (live_ne hp₁)
  rw [add_sub_cancel_left] at h₂
  refine wp_seq (fdalloc_spec (s₁.setOfile p fd0 (some rf)) p wf) ?_
  rintro (_ | fd1) s₃ h₃
  · obtain rfl := h₃
    rw [wp_bind, wp_modify]
    refine hclose _ (h₂.clear ?_)
    rw [setOfile_apply (some rf) (p, fd0), if_pos rfl]
  · obtain ⟨hnone', rfl⟩ := h₃
    have h₃ := h₂.fill (g := wf) hnone' (live_ne hp₁)
    rw [sub_self] at h₃
    exact h₃

end

theorem Inv.table (h : Inv d s) (t : Ptable nproc) (n : Int)
    (ht : ∀ p, (t p).state = .unused ∨ (t p).state = .zombie → ∀ fd, s.ofile p fd = none) :
    Inv d { s with proc := t, nextpid := n } :=
  ⟨h.count, ⟨h.ends.none, h.ends.live, h.ends.inj, h.ends.opened, h.ends.used, h.ends.sound⟩, ht⟩

theorem Inv.setProc (h : Inv d s) (v : Procs.Proc nproc → Procs.Proc nproc)
    (hv : (v (s.proc p)).state = .unused ∨ (v (s.proc p)).state = .zombie → ∀ fd, s.ofile p fd = none) :
    Inv d (s.setProc p v) := by
  refine h.table _ s.nextpid fun q hq fd => ?_
  rw [Ptable.set_apply] at hq
  split_ifs at hq with hqp
  · subst hqp
    exact hv hq fd
  · exact h.idle q hq fd

section

include h

theorem dupFd_spec (hnp : (s.proc np).state = .embryo) (hnone : s.ofile np fd = none) :
    wp (do
      let s ← get
      match s.ofile p fd with
      | some f => do filedup f; modify (·.setOfile np fd (some f))
      | none => pure ())
      (fun _ s' => Inv 0 s' ∧ s'.proc = s.proc ∧ ∀ i, i ≠ fd → s'.ofile np i = s.ofile np i) (fun _ _ => False) s := by
  rw [wp_bind, wp_get]
  split
  · rename_i f hf
    refine wp_seq (filedup_spec h (h.count.pos_of_slot hf)) fun _ s₁ h₁ => ?_
    obtain ⟨h₁, hs₁, -⟩ := h₁
    have hnone₁ : s₁.ofile np fd = none := by rw [hs₁.ofile, hnone]
    have hnp₁ : (s₁.proc np).state ≠ .unused ∧ (s₁.proc np).state ≠ .zombie := by simp [hs₁.proc, hnp]
    have h₂ := h₁.fill (g := f) hnone₁ hnp₁
    rw [add_sub_cancel_right] at h₂
    rw [wp_modify]
    refine ⟨h₂, hs₁.proc, fun i hi => ?_⟩
    rw [setOfile_apply (some f) (np, i), if_neg (by simp [hi]), hs₁.ofile]
  · exact ⟨h, rfl, fun _ _ => rfl⟩

theorem fork_spec (stack mem : Bool) :
    wp (fork p stack mem) (fun _ s' => Inv 0 s') (fun _ _ => False) s := by
  unfold fork
  rw [wp_bind, wp_get]
  split
  · exact h
  rename_i np hfind
  have hunused : (s.proc np).state = .unused := by simpa using List.find?_some hfind
  have hempty := h.idle np (.inl hunused)
  rw [wp_bind, wp_modify]
  have h₁ : Inv 0 ({ s with nextpid := Int.bmod (s.nextpid + 1) (2 ^ 32) }.setProc np fun v =>
      { v with state := .embryo, pid := s.nextpid }) :=
    Inv.setProc (h.table s.proc _ h.idle) _ fun _ => hempty
  have hstate₁ : (({ s with nextpid := Int.bmod (s.nextpid + 1) (2 ^ 32) }.setProc np fun v =>
      { v with state := .embryo, pid := s.nextpid }).proc np).state = .embryo := by
    simp [State.setProc]
  generalize hs₁ : State.setProc _ np _ = s₁ at h₁ hstate₁ ⊢
  have hempty₁ : ∀ fd, s₁.ofile np fd = none := by rw [← hs₁]; exact hempty
  split_ifs with hfail
  · rw [wp_bind, wp_modify, wp_pure]
    exact h₁.setProc _ fun _ => hempty₁
  · rw [wp_bind, wp_modify]
    have h₂ := h₁.setProc (p := np) (fun v => { v with parent := some p }) fun _ => hempty₁
    have hstate₂ : ((s₁.setProc np fun v => { v with parent := some p }).proc np).state = .embryo := by
      simp [State.setProc, hstate₁]
    -- The child has no descriptors yet for what is left of the loop.
    refine wp_seq (P := fun _ s' => Inv 0 s' ∧ (s'.proc np).state = .embryo) ?_ fun _ s₃ h₃ => ?_
    · refine wp_mono _ _ _ _ _ _ (wp_forEach _ (fun l s' => Inv 0 s' ∧ (s'.proc np).state = .embryo ∧ l.Nodup ∧
        ∀ i ∈ l, s'.ofile np i = none) _ (fun i l s' hs' => ?_) _ _ ⟨h₂, hstate₂, List.nodup_finRange nofile,
          fun i _ => hempty₁ i⟩)
        (fun _ _ hs' => ⟨hs'.1, hs'.2.1⟩) fun _ _ he => he
      obtain ⟨hi, hstate, hnodup, hfree⟩ := hs'
      obtain ⟨hnot, hnodup⟩ := List.nodup_cons.mp hnodup
      refine wp_mono _ _ _ _ _ _ (dupFd_spec hi hstate (hfree i List.mem_cons_self)) (fun _ s'' hs'' => ?_)
        fun _ _ he => he
      refine ⟨hs''.1, by rw [hs''.2.1, hstate], hnodup, fun j hj => ?_⟩
      rw [hs''.2.2 j (fun he => hnot (he ▸ hj)), hfree j (List.mem_cons_of_mem i hj)]
    · rw [wp_bind, wp_modify, wp_pure]
      exact h₃.1.setProc _ fun hv => by simp at hv

theorem closeFd_spec (p : Fin nproc) (fd : Fin nofile) :
    wp (closeFd p fd) (fun _ s' => Inv 0 s' ∧ FreesOne s s' ∧
    s'.proc = s.proc ∧ s'.initproc = s.initproc ∧ s'.ofile p fd = none ∧ ∀ i, i ≠ fd → s'.ofile p i = s.ofile p i)
    (fun _ _ => False) s := by
  unfold closeFd
  rw [wp_bind, wp_get]
  split
  · rename_i f hf
    refine wp_seq (fileclose_spec h (h.count.pos_of_slot hf)) fun _ s₁ h₁ => ?_
    obtain ⟨h₁, hs₁, hfree⟩ := h₁
    have hf₁ : s₁.ofile p fd = some f := by rw [hs₁.ofile, hf]
    have h₂ := h₁.clear hf₁
    rw [sub_add_cancel] at h₂
    rw [wp_modify]
    refine ⟨h₂, hfree, hs₁.proc, hs₁.initproc, ?_, fun i hi => ?_⟩
    · rw [setOfile_apply none (p, fd), if_pos rfl]
    · rw [setOfile_apply none (p, i), if_neg (by simp [hi]), hs₁.ofile]
  · rename_i hnone
    exact ⟨h, .inl rfl, rfl, rfl, hnone, fun _ _ => rfl⟩

theorem closeFds_spec (p : Fin nproc) (l : List (Fin nofile)) :
    wp (forEach (closeFd p) l) (fun _ s' => Inv 0 s' ∧
    s'.proc = s.proc ∧ s'.initproc = s.initproc ∧ ∀ i ∈ l, s'.ofile p i = none) (fun _ _ => False) s := by
  refine wp_mono _ _ _ _ _ _ (wp_forEach _ (fun rest s' => Inv 0 s' ∧ s'.proc = s.proc ∧ s'.initproc = s.initproc ∧
    ∀ i ∈ l, i ∉ rest → s'.ofile p i = none) _ (fun i rest s' hs' => ?_) l s ⟨h, rfl, rfl, fun i hi hn => absurd hi hn⟩)
    (fun _ _ hs' => ⟨hs'.1, hs'.2.1, hs'.2.2.1, fun i hi => hs'.2.2.2 i hi (by simp)⟩) fun _ _ he => he
  obtain ⟨hi, hproc, hinit, hdone⟩ := hs'
  refine wp_mono _ _ _ _ _ _ (closeFd_spec hi p i) (fun _ s'' hs'' => ?_) fun _ _ he => he
  obtain ⟨hi'', -, hproc'', hinit'', hself, hother⟩ := hs''
  refine ⟨hi'', hproc''.trans hproc, hinit''.trans hinit, fun j hj hn => ?_⟩
  rcases eq_or_ne j i with rfl | hji
  · exact hself
  · rw [hother j hji, hdone j hj (by simp [hji, hn])]

theorem exit_spec (hp : p ≠ s.initproc) (how : Exit) :
    wp (exit p how) (fun _ s' => Inv 0 s') (fun _ _ => False) s := by
  unfold exit
  rw [wp_bind, wp_get, if_neg hp]
  refine wp_seq (closeFds_spec h p _) fun _ s₁ h₁ => ?_
  obtain ⟨h₁, -, hinit, hclosed⟩ := h₁
  rw [wp_bind, wp_modify, wp_pure]
  refine h₁.table _ s₁.nextpid fun q hq fd => ?_
  rcases eq_or_ne q p with rfl | hqp
  · exact hclosed fd (List.mem_finRange fd)
  · refine h₁.idle q ?_ fd
    rcases Ptable.exit_state s₁.initproc p (by rw [hinit]; exact hp.symm) how.status s₁.proc q hqp with he | ⟨-, he⟩
    · rwa [he] at hq
    · rw [he] at hq
      simp at hq

theorem wait_spec : wp (wait p) (fun _ s' => Inv 0 s') (fun _ _ => False) s := by
  unfold wait
  rw [wp_bind, wp_get]
  split
  · rename_i q hq
    rw [wp_bind, wp_modify, wp_pure]
    refine h.setProc (p := q) _ fun _ => ?_
    exact h.idle q (.inr (Ptable.zombieChild_some hq).2)
  · exact h

end

def HasDescriptor (s : State nfile nofile nproc) (pg : Page) : Prop :=
  ∃ p fd f, s.ofile p fd = some f ∧ (s.file f).type = .pipe ∧ (s.file f).pipe = pg

structure Good (s : State nfile nofile nproc) : Prop where
  ref : ∀ f, (s.file f).ref = (slots s f).card
  none : ∀ f, (s.file f).ref = 0 → (s.file f).type = .none
  pipe : ∀ pg, inUse pg s.heap = true ↔ HasDescriptor s pg
  once : Sound s.heap

/-- A close frees the page of the pipe that has lost its last descriptor and no other. -/
def Closes (s s' : State nfile nofile nproc) : Prop :=
  s'.heap = s.heap ∧ (∀ pg, HasDescriptor s' pg ↔ HasDescriptor s pg) ∨
  ∃ pg, s'.heap = .kfree pg :: s.heap ∧ HasDescriptor s pg ∧ ¬ HasDescriptor s' pg ∧
    ∀ q, q ≠ pg → (HasDescriptor s' q ↔ HasDescriptor s q)

theorem Inv.good (h : Inv 0 s) : Good s := by
  have hcount : ∀ f, (s.file f).ref = (slots s f).card := fun f => by
    have hf := h.count f
    rw [Pi.zero_apply, add_zero] at hf
    exact_mod_cast hf
  refine ⟨hcount, h.ends.none, fun pg => ⟨fun hu => ?_, ?_⟩, h.ends.sound⟩
  · obtain ⟨w, f, htype, hpipe, -⟩ := h.ends.used pg hu
    have hpos : (slots s f).card ≠ 0 := fun h0 => by
      rw [h.ends.none f ((hcount f).trans h0)] at htype
      cases htype
    obtain ⟨⟨p, fd⟩, hx⟩ := Finset.card_ne_zero.mp hpos
    exact ⟨p, fd, f, mem_slots.mp hx, htype, hpipe⟩
  · rintro ⟨p, fd, f, -, htype, hpipe⟩
    exact h.ends.live pg _ f ⟨htype, hpipe, rfl⟩

theorem Good.closes (h : Good s) (h' : Good s') (hf : FreesOne s s') : Closes s s' := by
  rcases hf with he | ⟨pg, he⟩
  · exact .inl ⟨he, fun pg => by rw [← h'.pipe, ← h.pipe, he]⟩
  · have hs := h'.once
    rw [he] at hs
    refine .inr ⟨pg, he, (h.pipe pg).mp hs.1, fun hd => ?_, fun q hq => ?_⟩
    · rw [← h'.pipe, he, inUse_kfree] at hd
      exact hd.1 rfl
    · rw [← h'.pipe, ← h.pipe, he, inUse_kfree]
      exact and_iff_right hq

theorem init_inv (h : Init s) : Inv 0 s := by
  refine ⟨fun f => ?_, init_ends h, fun p _ fd => h.ofile p fd⟩
  have hslots : slots s f = ∅ := by
    ext x
    simp [mem_slots, h.ofile]
  rw [hslots, (h.file f).1]
  rfl

theorem body_spec (h : Inv 0 s) (c : Call) (hen : enabled s p c = true) (hc : ∀ how, c = .exit how → p ≠ s.initproc) :
    wp (c.body p) (fun _ s' => Inv 0 s') (fun _ _ => False) s := by
  unfold enabled at hen
  rw [Bool.and_eq_true] at hen
  obtain ⟨hp, hen⟩ := hen
  rcases c with ⟨omode, found⟩ | ⟨ok, mem⟩ | fd | fd | ⟨stack, mem⟩ | how | _
  · exact sys_open_spec h hp omode found
  · refine sys_pipe_spec h hp ok mem ?_
    rintro pg rfl
    simpa using hen
  · exact sys_dup_spec h hp fd
  · exact wp_mono _ _ _ _ _ _ (sys_close_spec h fd) (fun _ _ hs' => hs'.1) fun _ _ he => he
  · exact fork_spec h stack mem
  · exact exit_spec h (hc how rfl) how
  · exact wait_spec h

theorem exit_init (s : State nfile nofile nproc) (how : Exit) : exit s.initproc how s = (.error .initExiting, s) := by
  unfold exit
  rw [bind_apply]
  change (if s.initproc = s.initproc then _ else _ : M nfile nofile nproc Int) s = _
  rw [if_pos rfl]
  rfl

theorem step_inv {a : Fin nproc × Call} (h : Inv 0 s) (hs : step s a = some s') : Inv 0 s' := by
  obtain ⟨p, c⟩ := a
  unfold step at hs
  split_ifs at hs with hen
  split at hs
  · rename_i r s₁ he
    cases hs
    have hc : ∀ how, c = .exit how → p ≠ s.initproc := by
      rintro how rfl rfl
      have hexit := he.symm.trans (exit_init s how)
      cases hexit
    exact wp_ok _ _ _ _ _ r (body_spec h c hen hc) he
  · cases hs

/-- **The count of a file is the number of its descriptors, and a pipe is freed once, with its last descriptor.**
Every call returns without a panic of `filedup` or `fileclose`. -/
theorem file_refs (s : State nfile nofile nproc) (h : (system nfile nofile nproc).Reach s) :
    Good s ∧
    (∀ p c, enabled s p c = true → (∃ r s', c.body p s = (.ok r, s') ∧ Good s') ∨
      ∃ how, c = .exit how ∧ p = s.initproc ∧ c.body p s = (.error .initExiting, s)) ∧
    (∀ p fd, ∃ r s', sys_close p fd s = (.ok r, s') ∧ Good s' ∧ Closes s s') ∧
    ∀ p k fd, ∃ s₁ s₂, forEach (closeFd p) ((List.finRange nofile).take k) s = (.ok (), s₁) ∧ Good s₁ ∧
      closeFd p fd s₁ = (.ok (), s₂) ∧ Good s₂ ∧ Closes s₁ s₂ := by
  have hi : Inv 0 s := (system nfile nofile nproc).reach_inv (Inv 0) (fun _ => init_inv) (fun _ _ _ => step_inv) s h
  refine ⟨hi.good, fun p c hen => ?_, fun p fd => ?_, fun p k fd => ?_⟩
  · by_cases hc : ∀ how, c = .exit how → p ≠ s.initproc
    · obtain ⟨r, s', he, hi'⟩ := wp_total _ _ _ (body_spec hi c hen hc)
      exact .inl ⟨r, s', he, hi'.good⟩
    · push Not at hc
      obtain ⟨how, rfl, rfl⟩ := hc
      exact .inr ⟨how, rfl, rfl, exit_init s how⟩
  · obtain ⟨r, s', he, hi', hf⟩ := wp_total _ _ _ (sys_close_spec hi fd)
    exact ⟨r, s', he, hi'.good, hi.good.closes hi'.good hf⟩
  · obtain ⟨_, s₁, he₁, hi₁, -⟩ := wp_total _ _ _ (closeFds_spec hi p ((List.finRange nofile).take k))
    obtain ⟨_, s₂, he₂, hi₂, hf, -⟩ := wp_total _ _ _ (closeFd_spec hi₁ p fd)
    exact ⟨s₁, s₂, he₁, hi₁.good, he₂, hi₂.good, hi₁.good.closes hi₂.good hf⟩

def boot : State 3 2 2 where
  file _ := { type := .none, ref := 0, readable := false, writable := false, pipe := 0, ip := 0, off := 0 }
  ofile _ _ := none
  pipe _ := { data := fun _ => 0, nread := 0, nwrite := 0, readopen := false, writeopen := false }
  heap := []
  proc p :=
    { state := if p = 0 then .running else .unused, pid := 1, parent := none, chan := none, killed := false,
      exit_status := 0 }
  nextpid := 2
  initproc := 0

theorem boot_init : Init boot := ⟨fun _ => ⟨rfl, rfl⟩, fun _ _ => rfl, rfl⟩

/-- A pipe, a child that shares it, a second pipe that finds no free descriptor, and the parent closes both of its
ends. -/
def shared : List (Fin 2 × Call) :=
  [(0, .pipe true (some 7)), (0, .fork true true), (0, .pipe true (some 8)), (0, .close (some 0)), (0, .close (some 1))]

theorem file_refs_shared : ∃ s, (system 3 2 2).Reach s ∧ inUse 7 s.heap = true ∧ HasDescriptor s 7 ∧
    ∃ r s', exit 1 (.exit2 3) s = (.ok r, s') ∧ ∀ f, (s'.file f).ref = (slots s' f).card := by
  have hrun : ((system 3 2 2).run boot shared).map (fun s => (inUse 7 s.heap, enabled s 1 (.exit (.exit2 3)),
    s.initproc)) =
      some (true, true, 0) := by
    decide +kernel
  obtain ⟨s, hreach, hv⟩ := (system 3 2 2).reach_of_map boot_init hrun
  simp only [Prod.mk.injEq] at hv
  obtain ⟨huse, hen, hinit⟩ := hv
  obtain ⟨hgood, hcalls, -, -⟩ := file_refs s hreach
  refine ⟨s, hreach, huse, (hgood.pipe 7).mp huse, ?_⟩
  rcases hcalls 1 (.exit (.exit2 3)) hen with ⟨r, s', he, hgood'⟩ | ⟨-, -, he, -⟩
  · exact ⟨r, s', he, hgood'.ref⟩
  · rw [hinit] at he
    exact absurd he (by decide)

end Xv6.Files
