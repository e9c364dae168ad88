import Xv6.Sys.Inv

/-! # Operations on files and processes keep what all processes have together -/

open Lib Function

namespace Xv6.Sys

variable {s s' : Kernel} {L L' : Fin NPROC → Local} {p : Fin NPROC} {l' : Local}

theorem Files.move (h : Files s L) (hother : ∀ q, q ≠ p → (s'.proc q).ofile = (s.proc q).ofile)
    (hle : ∀ g, Sys.fshare l' (s'.proc p) g + (s.file g).ref ≤ Sys.fshare (L p) (s.proc p) g + (s'.file g).ref)
    (hpos : ∀ g, 0 ≤ Sys.fshare l' (s'.proc p) g) (hclosed : ∀ g, (s'.file g).ref = 0 → (s'.file g).ip = none)
    (hip : ∀ q, q ≠ p → ∀ g e, (L q).ip = some (g, e) → (s'.file g).ip = some e)
    (hfresh : ∀ q, q ≠ p → ∀ g, (L q).fresh = some g → (s'.file g).ip = none)
    (hdesc' : ∀ fd g, l'.desc = some (fd, g) → (s'.proc p).ofile fd = some g)
    (hip' : ∀ g e, l'.ip = some (g, e) → 0 < Sys.fshare l' (s'.proc p) g ∧ (s'.file g).ip = some e)
    (hfresh' : ∀ g, l'.fresh = some g → 0 < Sys.fshare l' (s'.proc p) g ∧ (s'.file g).ip = none)
    (hinj : ∀ q, q ≠ p → ∀ g, l'.fresh = some g → (L q).fresh ≠ some g) : Files s' (update L p l') := by
  have hsame : ∀ q, q ≠ p → ∀ g, Sys.fshare (update L p l' q) (s'.proc q) g = Sys.fshare (L q) (s.proc q) g := by
    intro q hq g
    rw [update_of_ne hq]
    exact fshare_congr rfl (hother q hq) g
  constructor
  · intro g
    have hsum := sum_move (fun q => Sys.fshare (L q) (s.proc q) g)
      (fun q => Sys.fshare (update L p l' q) (s'.proc q) g) p (fun q hq => hsame q hq g)
    have h1 := h.fref g
    have h2 := hle g
    simp only [update_self] at hsum
    omega
  · intro q g
    rcases eq_or_ne q p with rfl | hq
    · rw [update_self]
      exact hpos g
    · rw [hsame q hq]
      exact h.fshare q g
  · exact hclosed
  · intro q fd g
    rcases eq_or_ne q p with rfl | hq
    · rw [update_self]
      exact hdesc' fd g
    · rw [update_of_ne hq, hother q hq]
      exact h.desc q fd g
  · intro q g e
    rcases eq_or_ne q p with rfl | hq
    · rw [update_self]
      exact hip' g e
    · rw [hsame q hq, update_of_ne hq]
      exact fun hg => ⟨(h.ip q g e hg).1, hip q hq g e hg⟩
  · intro q g
    rcases eq_or_ne q p with rfl | hq
    · rw [update_self]
      exact hfresh' g
    · rw [hsame q hq, update_of_ne hq]
      exact fun hg => ⟨(h.fresh q g hg).1, hfresh q hq g hg⟩
  · intro q q' g h1 h2
    by_contra hne
    rcases eq_or_ne q p with rfl | hq
    · rw [update_self] at h1
      rw [update_of_ne (Ne.symm hne)] at h2
      exact hinj q' (Ne.symm hne) g h1 h2
    · rw [update_of_ne hq] at h1
      rcases eq_or_ne q' p with rfl | hq'
      · rw [update_self] at h2
        exact hinj q hq g h2 h1
      · rw [update_of_ne hq'] at h2
        exact hne (h.inj q q' g h1 h2)

theorem Files.two (h : Files s L) {q : Fin NPROC} (hq : q ≠ p) {f : Fin NFILE} (h1 : 0 < Sys.fshare (L p) (s.proc p) f)
    (h2 : 0 < Sys.fshare (L q) (s.proc q) f) : 2 ≤ (s.file f).ref := by
  have := add_le_sum_of_nonneg (fun q => Sys.fshare (L q) (s.proc q) f) (fun q => h.fshare q f) p q hq.symm
  have := h.fref f
  omega

theorem Files.one (h : Files s L) {f : Fin NFILE} (h1 : 0 < Sys.fshare (L p) (s.proc p) f) : 1 ≤ (s.file f).ref := by
  have := le_sum_of_nonneg (fun q => Sys.fshare (L q) (s.proc q) f) (fun q => h.fshare q f) p
  have := h.fref f
  omega

theorem ownsFile_share (h : Inv s L) {f : Fin NFILE} (hf : (L p).OwnsFile f) : 0 < fshare (L p) (s.proc p) f := by
  unfold fshare
  rcases hf with hpos | ⟨hzero, fd, hdesc⟩
  · have := fdRef_nonneg (s.proc p) f
    omega
  · have := fdRef_pos (h.files.desc p fd f hdesc)
    omega

theorem file_setFile (s : Kernel) (f : Fin NFILE) (v : File) (g : Fin NFILE) :
    (s.setFile f v).file g = if g = f then v else s.file g := update_apply ..

theorem proc_setProc (s : Kernel) (x : Fin NPROC) (f : Proc → Proc) (q : Fin NPROC) :
    (s.setProc x f).proc q = if q = x then f (s.proc x) else s.proc q := update_apply ..

theorem same_setProc {α : Type} (g : Proc → α) (x : Fin NPROC) (f : Proc → Proc) (hf : ∀ v, g (f v) = g v)
    (q : Fin NPROC) :
    g ((s.setProc x f).proc q) = g (s.proc q) := by
  rw [proc_setProc]
  split_ifs with hq
  · rw [hf, hq]
  · rfl

theorem fshare_add (l : Local) (v : Proc) (f g : Fin NFILE) :
    fshare { l with fown := l.fown + one f } v g = fshare l v g + if g = f then 1 else 0 := by
  unfold fshare
  simp only [Pi.add_apply, Pi.single_apply]
  omega

theorem fshare_sub (l : Local) (v : Proc) (f g : Fin NFILE) :
    fshare { l with fown := l.fown - one f } v g = fshare l v g - if g = f then 1 else 0 := by
  unfold fshare
  simp only [Pi.sub_apply, Pi.single_apply]
  omega

theorem Inv.of_files (h : Inv s L) (halive : (s.proc p).state = .alive)
    (hstate : ∀ q, (s'.proc q).state = (s.proc q).state)
    (hcwd : ∀ q, (s'.proc q).cwd = (s.proc q).cwd) (hop : s'.inOp = s.inOp) (hout : s'.outstanding = s.outstanding)
    (hl : l'.inOp = (L p).inOp ∧ l'.cwd = (L p).cwd ∧ l'.child = (L p).child) (hr : Refs s' (update L p l'))
    (hk : Locks s' (update L p l')) (hf : Files s' (update L p l')) : Inv s' (update L p l') where
  refs := hr
  locks := hk
  ops := h.ops.frame hop hout (update_same Local.inOp hl.1)
  files := hf
  procs := h.procs.frame hstate hcwd (update_same Local.cwd hl.2.1) (update_same Local.child hl.2.2)
    (idle_update halive)

theorem ip_setFile (f : Fin NFILE) (v : File) (hv : v.ip = (s.file f).ip) (g : Fin NFILE) :
    ((s.setFile f v).file g).ip = (s.file g).ip := by
  rw [file_setFile]
  split_ifs with hg
  · rw [hv, hg]
  · rfl

variable (h : Inv s L) (halive : (s.proc p).state = .alive)

section

include h halive

theorem Inv.of_counts (hentry : s'.entry = s.entry)
    (hip : ∀ f, (s'.file f).ip = (s.file f).ip) (hstate : ∀ q, (s'.proc q).state = (s.proc q).state)
    (hcwd : ∀ q, (s'.proc q).cwd = (s.proc q).cwd) (hop : s'.inOp = s.inOp) (hout : s'.outstanding = s.outstanding)
    (hl : l' = { L p with fown := l'.fown, desc := l'.desc, fresh := l'.fresh }) (hf : Files s' (update L p l')) :
    Inv s' (update L p l') := by
  refine h.of_files halive hstate hcwd hop hout ⟨by rw [hl], by rw [hl], by rw [hl]⟩ ?_ ?_ hf
  · exact h.refs.frame (fun e => by rw [hentry]) (fun e => by rw [hentry]) hip hcwd (update_same Local.own (by rw [hl]))
  · refine h.locks.refs (fun e => by rw [hentry]) (by rw [hl]) (by rw [hl]) (fun q _ => hcwd q) fun e _ => ?_
    rw [share_congr (l := L p) (by rw [hl]) (hcwd p)]

theorem inv_filealloc {f : Fin NFILE} (hf : (s.file f).ref = 0) :
    Inv (s.setFile f { s.file f with ref := 1 })
      (update L p { L p with fresh := some f, fown := (L p).fown + one f }) := by
  have hip : ∀ g, ((s.setFile f { s.file f with ref := 1 }).file g).ip = (s.file g).ip := ip_setFile f _ rfl
  have hshare : ∀ g, fshare { L p with fresh := some f, fown := (L p).fown + one f } (s.proc p) g =
      fshare (L p) (s.proc p) g + if g = f then 1 else 0 := fshare_add (L p) (s.proc p) f
  have hpos : ∀ q, fshare (L q) (s.proc q) f ≤ 0 := by
    intro q
    have := le_sum_of_nonneg (fun q => fshare (L q) (s.proc q) f) (fun q => h.files.fshare q f) q
    have := h.files.fref f
    omega
  refine h.of_counts halive rfl hip (fun _ => rfl) (fun _ => rfl) rfl rfl rfl ?_
  refine h.files.move (fun _ _ => rfl) (fun g => ?_) (fun g => ?_) (fun g => ?_) (fun q _ g e hg => ?_)
    (fun q _ g hg => ?_) (h.files.desc p) (fun g e hg => ?_) (fun g hg => ?_) (fun q _ g hg hq => ?_)
  · rw [show (s.setFile f _).proc = s.proc from rfl, hshare, file_setFile]
    split_ifs with hg
    · subst hg
      rw [hf]
      simp only [Nat.cast_zero, Nat.cast_one]
      omega
    · omega
  · have := h.files.fshare p g
    rw [show (s.setFile f _).proc = s.proc from rfl, hshare]
    split_ifs <;> omega
  · rw [hip, file_setFile]
    split_ifs with hg
    · simp
    · exact h.files.closed g
  · rw [hip]
    exact (h.files.ip q g e hg).2
  · rw [hip]
    exact (h.files.fresh q g hg).2
  · rw [hip, show (s.setFile f _).proc = s.proc from rfl, hshare]
    have := (h.files.ip p g e hg).1
    exact ⟨by split_ifs <;> omega, (h.files.ip p g e hg).2⟩
  · obtain rfl : f = g := Option.some.inj hg
    rw [hip, show (s.setFile f _).proc = s.proc from rfl, hshare, if_pos rfl]
    have := h.files.fshare p f
    exact ⟨by omega, h.files.closed f hf⟩
  · obtain rfl : f = g := Option.some.inj hg
    have := hpos q
    have := (h.files.fresh q f hq).1
    omega

theorem inv_nofile :
    Inv s (update L p { L p with fresh := none, fown := (L p).fown + 0 }) := by
  rw [add_zero]
  refine h.of_counts halive rfl (fun _ => rfl) (fun _ => rfl) (fun _ => rfl) rfl rfl rfl ?_
  refine h.files.move (fun _ _ => rfl) (fun _ => le_rfl)
    (h.files.fshare p) h.files.closed (fun q _ g e hg => (h.files.ip q g e hg).2)
    (fun q _ g hg => (h.files.fresh q g hg).2) (h.files.desc p) (h.files.ip p) (fun g hg => ?_) (fun q _ g hg => ?_)
  all_goals cases hg

end

theorem Files.grow (h : Files s L) (hother : ∀ q, q ≠ p → (s'.proc q).ofile = (s.proc q).ofile)
    (hip : ∀ f, (s'.file f).ip = (s.file f).ip) (hclosed : ∀ g, (s'.file g).ref = 0 → (s.file g).ref = 0)
    (hshare : ∀ g, Sys.fshare (L p) (s.proc p) g ≤ Sys.fshare l' (s'.proc p) g)
    (hle : ∀ g, Sys.fshare l' (s'.proc p) g + (s.file g).ref ≤ Sys.fshare (L p) (s.proc p) g + (s'.file g).ref)
    (hdesc : ∀ fd g, l'.desc = some (fd, g) → (s'.proc p).ofile fd = some g) (hl : l'.ip = (L p).ip)
    (hl' : l'.fresh = (L p).fresh) :
    Files s' (update L p l') := by
  refine h.move hother hle (fun g => (h.fshare p g).trans (hshare g)) (fun g hg => ?_) (fun q _ g e hg => ?_)
    (fun q _ g hg => ?_) hdesc (fun g e hg => ?_) (fun g hg => ?_) (fun q hq g hg hq' => ?_)
  · rw [hip]
    exact h.closed g (hclosed g hg)
  · rw [hip]
    exact (h.ip q g e hg).2
  · rw [hip]
    exact (h.fresh q g hg).2
  · rw [hl] at hg
    rw [hip]
    exact ⟨lt_of_lt_of_le (h.ip p g e hg).1 (hshare g), (h.ip p g e hg).2⟩
  · rw [hl'] at hg
    rw [hip]
    exact ⟨lt_of_lt_of_le (h.fresh p g hg).1 (hshare g), (h.fresh p g hg).2⟩
  · rw [hl'] at hg
    exact hq (h.inj q p g hq' hg)

section

include h halive

theorem inv_setFd (fd : Fin NOFILE) (x : Option (Fin NFILE))
    (hshare : ∀ g, fshare l' { s.proc p with ofile := update (s.proc p).ofile fd x } g = fshare (L p) (s.proc p) g)
    (hdesc : ∀ fd' g, l'.desc = some (fd', g) → fd' ≠ fd ∧ (L p).desc = some (fd', g))
    (hl : l' = { L p with fown := l'.fown, desc := l'.desc }) :
    Inv (s.setProc p fun q => { q with ofile := update q.ofile fd x }) (update L p l') := by
  have hp : (s.setProc p fun q => { q with ofile := update q.ofile fd x }).proc p =
      { s.proc p with ofile := update (s.proc p).ofile fd x } := update_self ..
  have hl' : l' = { L p with fown := l'.fown, desc := l'.desc, fresh := l'.fresh } := by rw [hl]
  refine h.of_counts halive rfl (fun _ => rfl) (same_setProc _ p _ fun _ => rfl)
    (same_setProc _ p _ fun _ => rfl) rfl rfl hl' ?_
  refine h.files.grow (fun q hq => ?_) (fun _ => rfl) (fun _ hg => hg) (fun g => ?_) (fun g => ?_) (fun fd' g hg => ?_)
    (by rw [hl]) (by rw [hl])
  · rw [proc_setProc, if_neg hq]
  · rw [hp, hshare]
  · rw [hp, hshare]
    exact le_rfl
  · rw [hp]
    obtain ⟨hne, hg'⟩ := hdesc fd' g hg
    exact (update_of_ne hne ..).trans (h.files.desc p fd' g hg')

theorem inv_fdalloc (f : Fin NFILE) {fd : Fin NOFILE} (hfd : (s.proc p).ofile fd = none) :
    Inv (s.setProc p fun q => { q with ofile := update q.ofile fd (some f) })
      (update L p { L p with fown := (L p).fown - one f }) := by
  refine inv_setFd h halive fd (some f) (fun g => ?_) (fun fd' g hg => ⟨?_, hg⟩) rfl
  · have := fdRef_update (s.proc p) fd (some f) g
    rw [fshare_sub]
    unfold fshare
    rw [hfd] at this
    simp only [reduceCtorEq, if_false, Option.some.injEq, eq_comm (a := f)] at this
    dsimp only at this ⊢
    omega
  · rintro rfl
    have := h.files.desc p fd' g hg
    rw [hfd] at this
    cases this

theorem inv_clearFd {f : Fin NFILE} {fd : Fin NOFILE} (hdesc : (L p).desc = some (fd, f)) :
    Inv (s.setProc p fun q => { q with ofile := update q.ofile fd none })
      (update L p { L p with desc := none, fown := (L p).fown + one f }) := by
  refine inv_setFd h halive fd none (fun g => ?_) (fun _ _ hg => by cases hg) rfl
  have := fdRef_update (s.proc p) fd none g
  rw [h.files.desc p fd f hdesc] at this
  simp only [reduceCtorEq, if_false, Option.some.injEq, eq_comm (a := f)] at this
  unfold fshare
  simp only [Pi.add_apply, Pi.single_apply]
  omega

theorem inv_filedup (f : Fin NFILE) :
    Inv (s.setFile f { s.file f with ref := (s.file f).ref + 1 })
      (update L p { L p with fown := (L p).fown + one f }) := by
  have hip := ip_setFile (s := s) f { s.file f with ref := (s.file f).ref + 1 } rfl
  refine h.of_counts halive rfl hip (fun _ => rfl) (fun _ => rfl) rfl rfl rfl ?_
  refine h.files.grow (fun _ _ => rfl) hip (fun g hg => ?_) (fun g => ?_) (fun g => ?_) (h.files.desc p) rfl rfl
  · rw [file_setFile] at hg
    split_ifs at hg
    exact hg
  · rw [fshare_add]
    simp only [Kernel.setFile]
    split_ifs <;> omega
  · rw [fshare_add, file_setFile]
    simp only [Kernel.setFile]
    split_ifs with hg
    · subst hg
      push_cast
      omega
    · omega

theorem inv_ofile (fd : Fin NOFILE) :
    Inv s (update L p { L p with desc := ((s.proc p).ofile fd).map (fd, ·) }) := by
  refine h.of_counts halive rfl (fun _ => rfl) (fun _ => rfl) (fun _ => rfl) rfl rfl rfl ?_
  refine h.files.grow (fun _ _ => rfl) (fun _ => rfl) (fun _ hg => hg) (fun _ => le_rfl) (fun _ => le_rfl) ?_ rfl rfl
  intro fd' g hg
  obtain ⟨g', hg', heq⟩ := Option.map_eq_some_iff.mp hg
  cases heq
  exact hg'

theorem inv_file {f : Fin NFILE} {fd : Fin NOFILE}
    (hown : 0 ≤ (L p).fown f) (hdesc : (L p).desc = some (fd, f)) (hlock : (L p).lock = fun _ => none) :
    Inv s (update L p { L p with ip := (s.file f).ip.map (f, ·) }) := by
  have hnone : ∀ e, (L p).lock e = none := congrFun hlock
  refine h.of_files halive (fun _ => rfl) (fun _ => rfl) rfl rfl ⟨rfl, rfl, rfl⟩ ?_ ?_ ?_
  · exact h.refs.frame (fun _ => rfl) (fun _ => rfl) (fun _ => rfl) (fun _ => rfl) (update_same Local.own rfl)
  · refine ⟨fun e q => ?_, fun q e he => ?_⟩
    · rcases eq_or_ne q p with rfl | hq
      · rw [update_self]
        exact h.locks.lock e q
      · rw [update_of_ne hq]
        exact h.locks.lock e q
    · have hq : q ≠ p := by
        rintro rfl
        rw [update_self] at he
        exact he (hnone e)
      rw [update_of_ne hq] at he ⊢
      exact h.locks.held q e he
  · refine h.files.move (fun _ _ => rfl) (fun _ => le_rfl) (h.files.fshare p) h.files.closed
      (fun q _ g e hg => (h.files.ip q g e hg).2) (fun q _ g hg => (h.files.fresh q g hg).2) (h.files.desc p)
        (fun g e hg => ?_)
      (h.files.fresh p) (fun q hq g hg hq' => hq (h.files.inj q p g hq' hg))
    obtain ⟨e', he', heq⟩ := Option.map_eq_some_iff.mp hg
    cases heq
    refine ⟨?_, he'⟩
    have := fdRef_pos (h.files.desc p fd f hdesc)
    unfold fshare
    dsimp only
    omega

end

theorem sum_setFile (s : Kernel) (f : Fin NFILE) (v : File) (e : Slot) :
    ∑ g, ipRef ((s.setFile f v).file g) e + ipRef (s.file f) e = ∑ g, ipRef (s.file g) e + ipRef v e :=
  sum_update (fun v => ipRef v e) s.file f v

theorem Refs.setFile (h : Refs s L) (f : Fin NFILE) (v : File)
    (href : ∀ e, Sys.share l' (s.proc p) e + ipRef v e = Sys.share (L p) (s.proc p) e + ipRef (s.file f) e)
    (hshare : ∀ e, 0 ≤ Sys.share l' (s.proc p) e) : Refs (s.setFile f v) (update L p l') := by
  refine h.move (fun _ _ => rfl) (fun e => ?_) hshare h.root
  have h1 := sum_setFile s f v e
  have h2 := href e
  simp only [Kernel.setFile] at h1 ⊢
  omega

section

include h halive

theorem inv_setFile {f : Fin NFILE} {i : Slot} (hfresh : (L p).fresh = some f)
    (hlock : (L p).lock i = none) (hpos : 0 < (L p).own i) (v : File) (hv : v.ip = some i)
    (hvref : v.ref = (s.file f).ref) :
    Inv (s.setFile f v) (update L p { L p with own := (L p).own - one i, fresh := none }) := by
  obtain ⟨hf, hnone⟩ := h.files.fresh p f hfresh
  have hdrop : ∀ e, share { L p with own := (L p).own - one i, fresh := none } (s.proc p) e =
      share (L p) (s.proc p) e - if e = i then 1 else 0 := share_drop (L p) (s.proc p) i
  have hother : ∀ g, g ≠ f → (s.setFile f v).file g = s.file g := fun g hg => update_of_ne hg ..
  refine h.of_files halive (fun _ => rfl) (fun _ => rfl) rfl rfl ⟨rfl, rfl, rfl⟩ ?_ ?_ ?_
  · refine h.refs.setFile f v (fun e => ?_) (fun e => ?_)
    · rw [hdrop, ipRef, ipRef, hv, hnone]
      simp only [reduceCtorEq, if_false, Option.some.injEq, eq_comm (a := i)]
      omega
    · rw [hdrop]
      have h1 := h.refs.share p e
      have h2 := cwdRef_nonneg (s.proc p) e
      split_ifs with he
      · subst he
        unfold share
        omega
      · omega
  · refine h.locks.refs (fun _ => rfl) rfl rfl (fun _ _ => rfl) fun e he => ?_
    have hne : e ≠ i := by
      rintro rfl
      exact he hlock
    show share (L p) (s.proc p) e ≤ share _ (s.proc p) e
    rw [hdrop, if_neg hne]
    omega
  · have href : ∀ g, ((s.setFile f v).file g).ref = (s.file g).ref := by
      intro g
      rw [file_setFile]
      split_ifs with hg
      · rw [hvref, hg]
      · rfl
    refine h.files.move (fun _ _ => rfl) (fun g => ?_) (h.files.fshare p) (fun g hg => ?_) (fun q hq g e hg => ?_)
      (fun q hq g hg => ?_) (h.files.desc p) (fun g e hg => ?_) (fun _ hg => by cases hg) (fun _ _ _ hg => by cases hg)
    · rw [href]
      exact le_rfl
    · rw [href] at hg
      have hne : g ≠ f := by
        rintro rfl
        have := h.files.one hf
        omega
      rw [hother g hne]
      exact h.files.closed g hg
    · have hip := (h.files.ip q g e hg).2
      have hne : g ≠ f := by
        rintro rfl
        rw [hnone] at hip
        cases hip
      rwa [hother g hne]
    · have hne : g ≠ f := by
        rintro rfl
        exact hq (h.files.inj q p g hg hfresh)
      rw [hother g hne]
      exact (h.files.fresh q g hg).2
    · have hip := h.files.ip p g e hg
      have hne : g ≠ f := by
        rintro rfl
        rw [hnone] at hip
        cases hip.2
      rw [hother g hne]
      exact hip

/-- One reference of a file goes; with the last one the file is closed and its inode goes to the caller. -/
theorem inv_fileclose {f : Fin NFILE} (hip : (L p).ip = none)
    (hf : (L p).OwnsFile f) {r : Option Slot} (hp : Kernel.fileclose f s = (.ok r, s')) :
    ((L p).fresh = some f → r = none) ∧
      Inv s' (update L p { L p with fresh := none, fown := (L p).fown - one f, own := (L p).own + r.elim 0 one }) := by
  have hpos := ownsFile_share h hf
  have hsub : ∀ g, fshare { L p with fresh := none, fown := (L p).fown - one f, own := (L p).own + r.elim 0 one }
    (s.proc p) g =
      fshare (L p) (s.proc p) g - if g = f then 1 else 0 := fshare_sub (L p) (s.proc p) f
  have hnonneg : ∀ g, 0 ≤ fshare (L p) (s.proc p) g - if g = f then 1 else 0 := by
    intro g
    have := h.files.fshare p g
    split_ifs with hg
    · subst hg
      omega
    · omega
  unfold Kernel.fileclose at hp
  split_ifs at hp with h0 h1
  · cases hp
  · -- Others have the file open.
    cases hp
    have hips := ip_setFile (s := s) f { s.file f with ref := (s.file f).ref - 1 } rfl
    have hzero : (L p).own + Option.elim (none : Option Slot) 0 one = (L p).own := add_zero _
    refine ⟨fun _ => rfl, ?_⟩
    refine h.of_counts halive rfl hips (fun _ => rfl) (fun _ => rfl) rfl rfl (by rw [hzero]) ?_
    refine h.files.move (fun _ _ => rfl) (fun g => ?_) (fun g => ?_) (fun g hg => ?_) (fun q _ g e hg => ?_)
      (fun q _ g hg => ?_) (h.files.desc p) (fun g e hg => ?_) (fun _ hg => by cases hg) (fun _ _ _ hg => by cases hg)
    · rw [show (s.setFile f _).proc = s.proc from rfl, hsub, file_setFile]
      split_ifs with hg
      · subst hg
        dsimp only
        omega
      · omega
    · rw [show (s.setFile f _).proc = s.proc from rfl, hsub]
      exact hnonneg g
    · rw [hips]
      rw [file_setFile] at hg
      split_ifs at hg with hgf
      · dsimp only at hg
        omega
      · exact h.files.closed g hg
    · rw [hips]
      exact (h.files.ip q g e hg).2
    · rw [hips]
      exact (h.files.fresh q g hg).2
    · rw [hip] at hg
      cases hg
  · cases hp
    have hothers : ∀ q, q ≠ p → ¬ 0 < fshare (L q) (s.proc q) f := by
      intro q hq hq'
      have := h.files.two hq hpos hq'
      omega
    have hfile : ∀ g, g ≠ f → (s.setFile f { s.file f with ref := 0, ip := none }).file g = s.file g :=
      fun g hg => update_of_ne hg ..
    have hshare : ∀ e, share
        { L p with fresh := none, fown := (L p).fown - one f, own := (L p).own + (s.file f).ip.elim 0 one }
        (s.proc p) e = share (L p) (s.proc p) e + ipRef (s.file f) e := by
      intro e
      unfold share ipRef
      rcases (s.file f).ip with _ | i
      · simp
      · simp only [Option.elim_some, Pi.add_apply, Pi.single_apply, Option.some.injEq, eq_comm (a := i)]
        omega
    refine ⟨fun hfresh => (h.files.fresh p f hfresh).2, ?_⟩
    refine h.of_files halive (fun _ => rfl) (fun _ => rfl) rfl rfl ⟨rfl, rfl, rfl⟩ ?_ ?_ ?_
    · refine h.refs.setFile f _ (fun e => ?_) (fun e => ?_)
      · rw [hshare]
        simp [ipRef]
      · rw [hshare]
        exact add_nonneg (h.refs.share p e) (ipRef_nonneg _ _)
    · refine h.locks.refs (fun _ => rfl) rfl rfl (fun _ _ => rfl) fun e _ => ?_
      show share (L p) (s.proc p) e ≤ share _ (s.proc p) e
      rw [hshare]
      have := ipRef_nonneg (s.file f) e
      omega
    · refine h.files.move (fun _ _ => rfl) (fun g => ?_) (fun g => ?_) (fun g hg => ?_) (fun q hq g e hg => ?_)
        (fun q hq g hg => ?_) (h.files.desc p) (fun g e hg => ?_) (fun _ hg => by cases hg)
          (fun _ _ _ hg => by cases hg)
      · rw [show (s.setFile f _).proc = s.proc from rfl, hsub, file_setFile]
        split_ifs with hg
        · subst hg
          omega
        · omega
      · rw [show (s.setFile f _).proc = s.proc from rfl, hsub]
        exact hnonneg g
      · rw [file_setFile] at hg ⊢
        split_ifs at hg ⊢
        · rfl
        · exact h.files.closed g hg
      · have hne : g ≠ f := by
          rintro rfl
          exact hothers q hq (h.files.ip q g e hg).1
        rw [hfile g hne]
        exact (h.files.ip q g e hg).2
      · have hne : g ≠ f := by
          rintro rfl
          exact hothers q hq (h.files.fresh q g hg).1
        rw [hfile g hne]
        exact (h.files.fresh q g hg).2
      · rw [hip] at hg
        cases hg

end

theorem Inv.of_states (h : Inv s L) (hentry : s'.entry = s.entry) (hfile : s'.file = s.file) (hop : s'.inOp = s.inOp)
    (hout : s'.outstanding = s.outstanding) (hcwd : ∀ q, (s'.proc q).cwd = (s.proc q).cwd)
    (hofile : ∀ q, (s'.proc q).ofile = (s.proc q).ofile) (hl : l' = { L p with child := l'.child })
    (hp : Procs s' (update L p l')) : Inv s' (update L p l') where
  refs := h.refs.frame (fun _ => by rw [hentry]) (fun _ => by rw [hentry]) (fun _ => by rw [hfile]) hcwd
    (update_same Local.own (by rw [hl]))
  locks := by
    refine h.locks.refs (fun _ => by rw [hentry]) (by rw [hl]) (by rw [hl]) (fun q _ => hcwd q) fun e _ => ?_
    rw [share_congr (l := L p) (by rw [hl]) (hcwd p)]
  ops := h.ops.frame hop hout (update_same Local.inOp (by rw [hl]))
  files := h.files.frame (fun _ => by rw [hfile]) (fun _ => by rw [hfile]) hofile (update_same Local.fown (by rw [hl]))
    (update_same Local.desc (by rw [hl])) (update_same Local.ip (by rw [hl])) (update_same Local.fresh (by rw [hl]))
  procs := hp

section

include h halive

theorem inv_cwd (v : Option Slot) (hv : (s.proc p).cwd = v) :
    Inv s (update L p { L p with cwd := some v }) where
  refs := h.refs.frame (fun _ => rfl) (fun _ => rfl) (fun _ => rfl) (fun _ => rfl) (update_same Local.own rfl)
  locks := h.locks.refs (fun _ => rfl) rfl rfl (fun _ _ => rfl) fun _ _ => le_rfl
  ops := h.ops.frame rfl rfl (update_same Local.inOp rfl)
  files := h.files.frame (fun _ => rfl) (fun _ => rfl) (fun _ => rfl) (update_same Local.fown rfl)
    (update_same Local.desc rfl) (update_same Local.ip rfl) (update_same Local.fresh rfl)
  procs := by
    have hchild : ∀ q, (update L p { L p with cwd := some v } q).child = (L q).child := update_same Local.child rfl
    refine ⟨fun q w hw => ?_, fun q np => ?_, fun q q' np => ?_, h.procs.dead, fun q hq => ?_⟩
    · rcases eq_or_ne q p with rfl | hq
      · rw [update_self] at hw
        cases hw
        exact hv
      · rw [update_of_ne hq] at hw
        exact h.procs.cwd q w hw
    · rw [hchild]
      exact h.procs.child q np
    · rw [hchild, hchild]
      exact h.procs.inj q q' np
    · rw [idle_update halive q hq]
      exact h.procs.idle q hq

theorem inv_setCwd {c : Slot} (hc : (L p).cwd = some (some c)) (v : Option Slot) :
    Inv (s.setProc p fun q => { q with cwd := v })
      (update L p { L p with own := (L p).own + one c - v.elim 0 one, cwd := some v }) := by
  have hcwd := h.procs.cwd p _ hc
  have hself : (s.setProc p fun q => { q with cwd := v }).proc p = { s.proc p with cwd := v } := update_self ..
  have hother : ∀ q, q ≠ p → (s.setProc p fun q => { q with cwd := v }).proc q = s.proc q :=
    fun q hq => update_of_ne hq ..
  have hshare : ∀ e, share { L p with own := (L p).own + one c - v.elim 0 one, cwd := some v }
    { s.proc p with cwd := v } e =
      share (L p) (s.proc p) e := by
    intro e
    unfold share cwdRef
    rw [hcwd]
    rcases v with _ | i
    · simp only [Option.elim_none, sub_zero, Pi.add_apply, Pi.single_apply, reduceCtorEq, if_false, Option.some.injEq,
        eq_comm (a := c)]
      omega
    · simp only [Option.elim_some, Pi.add_apply, Pi.sub_apply, Pi.single_apply, Option.some.injEq, eq_comm (a := c),
        eq_comm (a := i)]
      omega
  constructor
  · refine h.refs.move (fun q hq => by rw [hother q hq]) (fun e => ?_) (fun e => ?_) h.refs.root
    · rw [hself, hshare]
      rfl
    · rw [hself, hshare]
      exact h.refs.share p e
  · refine h.locks.refs (fun _ => rfl) rfl rfl (fun q hq => by rw [hother q hq]) fun e _ => ?_
    rw [hself, hshare]
  · exact h.ops.frame rfl rfl (update_same Local.inOp rfl)
  · exact h.files.frame (fun _ => rfl) (fun _ => rfl) (same_setProc Proc.ofile p _ fun _ => rfl)
      (update_same Local.fown rfl) (update_same Local.desc rfl) (update_same Local.ip rfl) (update_same Local.fresh rfl)
  · have hchild : ∀ q, (update L p { L p with own := (L p).own + one c - v.elim 0 one, cwd := some v } q).child =
        (L q).child := update_same Local.child rfl
    have hstate := same_setProc (s := s) Proc.state p (fun q => { q with cwd := v }) fun _ => rfl
    refine ⟨fun q w hw => ?_, fun q np hnp => ?_, fun q q' np => ?_, fun q hq => ?_, fun q hq => ?_⟩
    · rcases eq_or_ne q p with rfl | hq
      · rw [update_self] at hw
        rw [hself]
        cases hw
        rfl
      · rw [update_of_ne hq] at hw
        rw [hother q hq]
        exact h.procs.cwd q w hw
    · rw [hchild] at hnp
      have hnp' := h.procs.child q np hnp
      have hne : np ≠ p := by
        rintro rfl
        rw [halive] at hnp'
        cases hnp'.1
      rwa [hother np hne]
    · rw [hchild, hchild]
      exact h.procs.inj q q' np
    · rw [hstate] at hq
      have hne : q ≠ p := by
        rintro rfl
        rw [halive] at hq
        rcases hq with hq | hq <;> cases hq
      rw [hother q hne]
      exact h.procs.dead q hq
    · rw [hstate] at hq
      rw [idle_update halive q hq]
      exact h.procs.idle q hq

end

theorem Procs.setState (h : Procs s L) (halive : (s.proc p).state = .alive)
    (hcwd : ∀ q, (s'.proc q).cwd = (s.proc q).cwd)
    (hl : l'.cwd = (L p).cwd) (hchild : ∀ q np, (update L p l' q).child = some np → (s'.proc np).state = .embryo ∧
      (s'.proc np).cwd = none) (hinj : ∀ q q' np, (update L p l' q).child = some np →
      (update L p l' q').child = some np → q = q')
    (hdead : ∀ q, (s'.proc q).state = .unused ∨ (s'.proc q).state = .zombie → (s.proc q).cwd = none)
    (hidle : ∀ q, (s'.proc q).state ≠ .alive → (s.proc q).state ≠ .alive) : Procs s' (update L p l') := by
  refine ⟨fun q v => ?_, hchild, hinj, fun q hq => ?_, fun q hq => ?_⟩
  · rw [update_same Local.cwd hl, hcwd]
    exact h.cwd q v
  · rw [hcwd]
    exact hdead q hq
  · rw [idle_update halive q (hidle q hq)]
    exact h.idle q (hidle q hq)

theorem allocproc_spec {kalloc : Bool} {r : Option (Fin NPROC)} (hp : Kernel.allocproc kalloc s = (.ok r, s')) :
    (s'.entry = s.entry ∧ s'.file = s.file ∧ s'.inOp = s.inOp ∧ s'.outstanding = s.outstanding) ∧
    (∀ q, (s'.proc q).cwd = (s.proc q).cwd ∧ (s'.proc q).ofile = (s.proc q).ofile) ∧
    (∀ q, r ≠ some q → (s'.proc q).state = (s.proc q).state) ∧
    ∀ np, r = some np → (s.proc np).state = .unused ∧ (s'.proc np).state = .embryo := by
  unfold Kernel.allocproc at hp
  split at hp
  · cases hp
    exact ⟨⟨rfl, rfl, rfl, rfl⟩, fun _ => ⟨rfl, rfl⟩, fun _ _ => rfl, fun _ h => by cases h⟩
  · rename_i np hfind
    have hnp := List.find?_some hfind
    simp only [decide_eq_true_eq] at hnp
    split_ifs at hp <;> cases hp
    · refine ⟨⟨rfl, rfl, rfl, rfl⟩, fun q => ?_, fun q hq => ?_, ?_⟩
      · simp only [proc_setProc]
        split_ifs with hq
        · exact hq ▸ ⟨rfl, rfl⟩
        · exact ⟨rfl, rfl⟩
      · simp only [proc_setProc]
        rw [if_neg (fun h => hq (by rw [h])), if_neg (fun h => hq (by rw [h]))]
      · rintro _ ⟨⟩
        refine ⟨hnp, ?_⟩
        rw [proc_setProc, if_pos rfl]
    · refine ⟨⟨rfl, rfl, rfl, rfl⟩, fun q => ?_, fun q hq => ?_, fun _ h => by cases h⟩
      all_goals
        simp only [proc_setProc]
        split_ifs with hq
      · exact hq ▸ ⟨rfl, rfl⟩
      · exact ⟨rfl, rfl⟩
      · rw [hq]
      · rfl

section

include h halive

theorem inv_allocproc {kalloc : Bool} {r : Option (Fin NPROC)}
    (hp : Kernel.allocproc kalloc s = (.ok r, s')) : Inv s' (update L p { L p with child := r }) := by
  obtain ⟨⟨h1, h2, h3, h4⟩, hsame, hstate, hnew⟩ := allocproc_spec hp
  have hcwd : ∀ q, (s'.proc q).cwd = (s.proc q).cwd := fun q => (hsame q).1
  -- Children of others are embryos already and stay so.
  have hold : ∀ q np, (L q).child = some np → r ≠ some np := by
    intro q np hq hr
    have := (h.procs.child q np hq).1
    rw [(hnew np hr).1] at this
    cases this
  refine h.of_states h1 h2 h3 h4 hcwd (fun q => (hsame q).2) rfl ?_
  refine h.procs.setState halive hcwd rfl (fun q np hq => ?_) (fun q q' np hq hq' => ?_) (fun q hq => ?_)
    (fun q hq => ?_)
  · rcases eq_or_ne q p with rfl | hne
    · rw [update_self] at hq
      obtain ⟨hu, he⟩ := hnew np hq
      rw [hcwd]
      exact ⟨he, h.procs.dead np (.inl hu)⟩
    · rw [update_of_ne hne] at hq
      rw [hstate np (hold q np hq), hcwd]
      exact h.procs.child q np hq
  · by_contra hne
    rcases eq_or_ne q p with rfl | hqp
    · rw [update_self] at hq
      rw [update_of_ne (Ne.symm hne)] at hq'
      exact hold q' np hq' hq
    · rw [update_of_ne hqp] at hq
      rcases eq_or_ne q' p with rfl | hqp'
      · rw [update_self] at hq'
        exact hold q np hq hq'
      · rw [update_of_ne hqp'] at hq'
        exact hne (h.procs.inj q q' np hq hq')
  · rcases r with _ | np
    · rw [hstate q (by simp)] at hq
      exact h.procs.dead q hq
    · rcases eq_or_ne q np with rfl | hne
      · exact h.procs.dead q (.inl (hnew q rfl).1)
      · rw [hstate q (fun h => hne (Option.some.inj h).symm)] at hq
        exact h.procs.dead q hq
  · rcases r with _ | np
    · rwa [hstate q (by simp)] at hq
    · rcases eq_or_ne q np with rfl | hne
      · rw [(hnew q rfl).1]
        simp
      · rwa [hstate q (fun h => hne (Option.some.inj h).symm)] at hq

theorem inv_unalloc {np : Fin NPROC} (hnp : (L p).child = some np) :
    Inv (s.setProc np fun q => { q with state := .unused }) (update L p { L p with child := none }) := by
  have hcwd : ∀ q, ((s.setProc np fun q => { q with state := .unused }).proc q).cwd = (s.proc q).cwd :=
    same_setProc Proc.cwd np _ fun _ => rfl
  have hother : ∀ q, q ≠ np → (s.setProc np fun q => { q with state := .unused }).proc q = s.proc q :=
    fun q hq => update_of_ne hq ..
  have hembryo := h.procs.child p np hnp
  have hchild : ∀ q np', (update L p { L p with child := none } q).child = some np' → q ≠ p ∧
    (L q).child = some np' := by
    intro q np' hq
    rcases eq_or_ne q p with rfl | hne
    · rw [update_self] at hq
      cases hq
    · rw [update_of_ne hne] at hq
      exact ⟨hne, hq⟩
  refine h.of_states rfl rfl rfl rfl hcwd (same_setProc Proc.ofile np _ fun _ => rfl) rfl ?_
  refine h.procs.setState halive hcwd rfl (fun q np' hq => ?_) (fun q q' np' hq hq' => ?_) (fun q hq => ?_)
    (fun q hq => ?_)
  · obtain ⟨hne, hq⟩ := hchild q np' hq
    have hnp' : np' ≠ np := by
      rintro rfl
      exact hne (h.procs.inj q p np' hq hnp)
    rw [hother np' hnp']
    exact h.procs.child q np' hq
  · exact h.procs.inj q q' np' (hchild q np' hq).2 (hchild q' np' hq').2
  · rcases eq_or_ne q np with rfl | hne
    · exact hembryo.2
    · rw [hother q hne] at hq
      exact h.procs.dead q hq
  · rcases eq_or_ne q np with rfl | hne
    · rw [hembryo.1]
      simp
    · rwa [hother q hne] at hq

theorem inv_wait {r : Int} (hp : Kernel.wait p s = (.ok r, s')) :
    Inv s' (update L p (L p)) := by
  unfold Kernel.wait at hp
  split at hp
  · rename_i x hfind
    have hx := List.find?_some hfind
    simp only [decide_eq_true_eq] at hx
    cases hp
    have hother : ∀ q, q ≠ x →
        (s.setProc x fun v => { v with pid := 0, parent := none, state := .unused }).proc q = s.proc q :=
      fun q hq => update_of_ne hq ..
    have hcwd : ∀ q, ((s.setProc x fun v => { v with pid := 0, parent := none, state := .unused }).proc q).cwd =
      (s.proc q).cwd :=
      same_setProc Proc.cwd x _ fun _ => rfl
    refine h.of_states rfl rfl rfl rfl hcwd (same_setProc Proc.ofile x _ fun _ => rfl) rfl ?_
    refine h.procs.setState halive hcwd rfl (fun q np hq => ?_) (fun q q' np hq hq' => ?_) (fun q hq => ?_)
      (fun q hq => ?_)
    · rw [update_eq_self] at hq
      have hnp := h.procs.child q np hq
      have hne : np ≠ x := by
        rintro rfl
        rw [hx.2] at hnp
        cases hnp.1
      rwa [hother np hne]
    · rw [update_eq_self] at hq hq'
      exact h.procs.inj q q' np hq hq'
    · rcases eq_or_ne q x with rfl | hne
      · exact h.procs.dead q (.inr hx.2)
      · rw [hother q hne] at hq
        exact h.procs.dead q hq
    · rcases eq_or_ne q x with rfl | hne
      · rw [hx.2]
        simp
      · rwa [hother q hne] at hq
  · split_ifs at hp <;> cases hp
    rwa [update_eq_self]

end

theorem Inv.forget (h : Inv s L) (hdone : (L p).Done) : Inv s (update L p .idle) where
  refs := h.refs.frame (fun _ => rfl) (fun _ => rfl) (fun _ => rfl) (fun _ => rfl)
    (update_same Local.own hdone.own.symm)
  locks := by
    refine ⟨fun e q => ?_, fun q e he => ?_⟩
    · rw [update_same Local.lock hdone.lock.symm]
      exact h.locks.lock e q
    · have hq : q ≠ p := by
        rintro rfl
        rw [update_self] at he
        exact he rfl
      rw [update_of_ne hq] at he ⊢
      exact h.locks.held q e he
  ops := h.ops.frame rfl rfl (update_same Local.inOp hdone.inOp.symm)
  files := by
    have hshare : ∀ g, fshare Local.idle (s.proc p) g = fshare (L p) (s.proc p) g :=
      fun g => fshare_congr hdone.fown.symm rfl g
    refine h.files.move (fun _ _ => rfl) (fun g => ?_)
      (fun g => ?_) h.files.closed (fun q _ g e hg => (h.files.ip q g e hg).2)
      (fun q _ g hg => (h.files.fresh q g hg).2) (fun _ _ hg => by cases hg) (fun _ _ hg => by cases hg)
        (fun _ hg => by cases hg)
      (fun _ _ _ hg => by cases hg)
    · rw [hshare]
    · rw [hshare]
      exact h.files.fshare p g
  procs := by
    have hne : ∀ {α : Type} (g : Local → Option α) (a : α), g .idle = none → ∀ q, g (update L p .idle q) = some a →
        g (L q) = some a := by
      intro α g a hg q hq
      rcases eq_or_ne q p with rfl | hne
      · rw [update_self, hg] at hq
        cases hq
      · rwa [update_of_ne hne] at hq
    refine ⟨fun q v hq => h.procs.cwd q v (hne Local.cwd v rfl q hq),
      fun q np hq => h.procs.child q np (hne Local.child np rfl q hq),
      fun q q' np hq hq' => h.procs.inj q q' np (hne Local.child np rfl q hq) (hne Local.child np rfl q' hq'),
      h.procs.dead, fun q hq => ?_⟩
    rcases eq_or_ne q p with rfl | hqp
    · exact update_self ..
    · rw [update_of_ne hqp]
      exact h.procs.idle q hq

theorem exit_spec {status : Int} {r : Unit} (hp : Kernel.exit p status s = (.ok r, s')) :
    (s'.entry = s.entry ∧ s'.file = s.file ∧ s'.inOp = s.inOp ∧ s'.outstanding = s.outstanding) ∧
    (∀ q, (s'.proc q).cwd = (s.proc q).cwd ∧ (s'.proc q).ofile = (s.proc q).ofile) ∧
    ∀ q, (s'.proc q).state = if q = p then .zombie else (s.proc q).state := by
  cases hp
  refine ⟨⟨rfl, rfl, rfl, rfl⟩, fun q => ?_, fun q => ?_⟩
  all_goals
    rw [proc_setProc]
    split_ifs with hq
  · subst hq
    dsimp only
    split_ifs <;> exact ⟨rfl, rfl⟩
  · dsimp only
    split_ifs <;> exact ⟨rfl, rfl⟩
  · rfl
  · dsimp only
    split_ifs <;> rfl

section

include h halive

theorem inv_exit (hcwd : (L p).cwd = some none) (hdone : (L p).Done)
    {status : Int} {r : Unit} (hp : Kernel.exit p status s = (.ok r, s')) : Inv s' (update L p .idle) := by
  have hnone := h.procs.cwd p _ hcwd
  replace h := h.forget hdone
  obtain ⟨⟨h1, h2, h3, h4⟩, hsame, hstate⟩ := exit_spec hp
  constructor
  · exact h.refs.frame (fun _ => by rw [h1]) (fun _ => by rw [h1]) (fun _ => by rw [h2]) (fun q => (hsame q).1)
      fun _ => rfl
  · refine h.locks.frame (fun _ => by rw [h1]) (fun _ _ => Iff.rfl) (fun q e _ => ?_) fun _ => rfl
    rw [share_congr (v := s.proc q) rfl (hsame q).1]
  · exact h.ops.frame h3 h4 fun _ => rfl
  · exact h.files.frame (fun _ => by rw [h2]) (fun _ => by rw [h2]) (fun q => (hsame q).2) (fun _ => rfl) (fun _ => rfl)
      (fun _ => rfl) fun _ => rfl
  · refine ⟨fun q v hq => ?_, fun q np hq => ?_, h.procs.inj, fun q hq => ?_, fun q hq => ?_⟩
    · rw [(hsame q).1]
      exact h.procs.cwd q v hq
    · have hnp := h.procs.child q np hq
      have hne : np ≠ p := by
        rintro rfl
        rw [halive] at hnp
        cases hnp.1
      rw [hstate, if_neg hne, (hsame np).1]
      exact hnp
    · rw [(hsame q).1]
      rw [hstate] at hq
      split_ifs at hq with hqp
      · rw [hqp]
        exact hnone
      · exact h.procs.dead q hq
    · rw [hstate] at hq
      split_ifs at hq with hqp
      · rw [hqp]
        exact update_self ..
      · exact h.procs.idle q hq

theorem child_facts {np : Fin NPROC} (hnp : (L p).child = some np) :
    np ≠ p ∧ (s.proc np).cwd = none ∧ L np = .idle := by
  have hembryo := h.procs.child p np hnp
  refine ⟨?_, hembryo.2, h.procs.idle np (by rw [hembryo.1]; simp)⟩
  rintro rfl
  rw [halive] at hembryo
  cases hembryo.1

theorem inv_childFd {np : Fin NPROC} (hnp : (L p).child = some np)
    (hip : (L p).ip = none) (hfresh : (L p).fresh = none) {fd : Fin NOFILE} {f : Fin NFILE} (hf : 0 < (L p).fown f)
    (hs : s' = s.setProc np fun q => { q with ofile := update q.ofile fd (some f) })
    (hl : l' = { L p with fown := (L p).fown - one f }) : Inv s' (update L p l') := by
  obtain ⟨hnpp, -, hidle⟩ := child_facts h halive hnp
  have hself : s'.proc np = { s.proc np with ofile := update (s.proc np).ofile fd (some f) } := by
    rw [hs]
    exact update_self ..
  have hother : ∀ q, q ≠ np → s'.proc q = s.proc q := by
    intro q hq
    rw [hs]
    exact update_of_ne hq ..
  have hfile : s'.file = s.file := by rw [hs]; rfl
  have hcwd : ∀ q, (s'.proc q).cwd = (s.proc q).cwd := by
    rw [hs]
    exact same_setProc Proc.cwd np _ fun _ => rfl
  have hstate : ∀ q, (s'.proc q).state = (s.proc q).state := by
    rw [hs]
    exact same_setProc Proc.state np _ fun _ => rfl
  have hsub : ∀ v g, fshare l' v g = fshare (L p) v g - if g = f then 1 else 0 := by
    rw [hl]
    exact fun v g => fshare_sub (L p) v f g
  have hLnp : update L p l' np = .idle := by
    rw [update_of_ne hnpp, hidle]
  have hlip : l'.ip = (L p).ip := by rw [hl]
  have hlfresh : l'.fresh = (L p).fresh := by rw [hl]
  have hldesc : l'.desc = (L p).desc := by rw [hl]
  -- Neither the new process nor the caller knows of a file.
  have hnot : ∀ {α : Type} (g : Local → Option α) (q : Fin NPROC) (a : α), g (L p) = none → g .idle = none →
    g (L q) = some a →
      q ≠ np ∧ q ≠ p := by
    intro α g q a hp hi hq
    refine ⟨?_, ?_⟩
    · rintro rfl
      rw [hidle, hi] at hq
      cases hq
    · rintro rfl
      rw [hp] at hq
      cases hq
  refine h.of_counts halive (by rw [hs]; rfl) (fun _ => by rw [hfile]) hstate hcwd (by rw [hs]; rfl) (by rw [hs]; rfl)
    (by rw [hl]) ?_
  constructor
  · intro g
    have h1 := sum_move (fun q => fshare (L q) (s.proc q) g) (fun q => fshare (L q) (s'.proc q) g) np
      (fun q hq => by rw [hother q hq])
    have h2 := sum_move (fun q => fshare (L q) (s'.proc q) g) (fun q => fshare (update L p l' q) (s'.proc q) g) p
      (fun q hq => by rw [update_of_ne hq])
    have h3 := fdRef_update (s.proc np) fd (some f) g
    have h4 := h.files.fref g
    simp only [update_self, hsub] at h2
    rw [hself] at h1
    simp only [Option.some.injEq, eq_comm (a := f)] at h3
    have h5 : fshare (L np) { s.proc np with ofile := update (s.proc np).ofile fd (some f) } g =
      fshare (L np) (s.proc np) g + (if g = f then 1 else 0) - if (s.proc np).ofile fd = some g then 1 else 0 := by
      unfold fshare
      dsimp only at h3 ⊢
      omega
    rw [hfile]
    omega
  · intro q g
    rcases eq_or_ne q p with rfl | hq
    · rw [update_self, hother q hnpp.symm, hsub]
      have := h.files.fshare q g
      have := fdRef_nonneg (s.proc q) g
      split_ifs with hg
      · subst hg
        unfold fshare
        omega
      · omega
    · rcases eq_or_ne q np with rfl | hqn
      · rw [hLnp]
        exact add_nonneg le_rfl (fdRef_nonneg _ _)
      · rw [update_of_ne hq, hother q hqn]
        exact h.files.fshare q g
  · rw [hfile]
    exact h.files.closed
  · intro q fd' g hg
    rw [update_same Local.desc hldesc] at hg
    have hqn : q ≠ np := by
      rintro rfl
      rw [hidle] at hg
      cases hg
    rw [hother q hqn]
    exact h.files.desc q fd' g hg
  · intro q g e hg
    rw [update_same Local.ip hlip] at hg
    obtain ⟨hqn, hqp⟩ := hnot Local.ip q _ hip rfl hg
    rw [hother q hqn, update_of_ne hqp, hfile]
    exact h.files.ip q g e hg
  · intro q g hg
    rw [update_same Local.fresh hlfresh] at hg
    obtain ⟨hqn, hqp⟩ := hnot Local.fresh q _ hfresh rfl hg
    rw [hother q hqn, update_of_ne hqp, hfile]
    exact h.files.fresh q g hg
  · intro q q' g
    rw [update_same Local.fresh hlfresh, update_same Local.fresh hlfresh]
    exact h.files.inj q q' g

theorem inv_start {np : Fin NPROC}
    (hnp : (L p).child = some np) {i : Slot} (hlock : (L p).lock i = none) (hpos : 0 < (L p).own i)
    (hs : s' = s.setProc np fun q => { q with parent := some p, cwd := some i, state := .alive })
    (hl : l' = { L p with own := (L p).own - one i, child := none }) : Inv s' (update L p l') := by
  obtain ⟨hnpp, hnone, hidle⟩ := child_facts h halive hnp
  have hself : s'.proc np = { s.proc np with parent := some p, cwd := some i, state := .alive } := by
    rw [hs]
    exact update_self ..
  have hother : ∀ q, q ≠ np → s'.proc q = s.proc q := by
    intro q hq
    rw [hs]
    exact update_of_ne hq ..
  have hentry : s'.entry = s.entry := by rw [hs]; rfl
  have hfile : s'.file = s.file := by rw [hs]; rfl
  have hdrop : ∀ e, share l' (s.proc p) e = share (L p) (s.proc p) e - if e = i then 1 else 0 := by
    rw [hl]
    exact share_drop (L p) (s.proc p) i
  have hnew : ∀ e, share (L np) (s'.proc np) e = share (L np) (s.proc np) e + if e = i then 1 else 0 := by
    intro e
    rw [hself]
    unfold share cwdRef
    rw [hnone]
    simp only [reduceCtorEq, if_false, Option.some.injEq, eq_comm (a := i)]
    omega
  have hchild : ∀ q np', (update L p l' q).child = some np' → q ≠ p ∧ (L q).child = some np' := by
    intro q np' hq
    rcases eq_or_ne q p with rfl | hne
    · rw [update_self, hl] at hq
      cases hq
    · rw [update_of_ne hne] at hq
      exact ⟨hne, hq⟩
  have hllock : l'.lock = (L p).lock := by rw [hl]
  have hlcwd : l'.cwd = (L p).cwd := by rw [hl]
  constructor
  · refine ⟨fun e => ?_, fun q e => ?_, by rw [hentry]; exact h.refs.root⟩
    · have h1 := sum_move (fun q => share (L q) (s.proc q) e) (fun q => share (L q) (s'.proc q) e) np
        (fun q hq => by rw [hother q hq])
      have h2 := sum_move (fun q => share (L q) (s'.proc q) e) (fun q => share (update L p l' q) (s'.proc q) e) p
        (fun q hq => by rw [update_of_ne hq])
      have h3 := h.refs.ref e
      simp only [hnew, update_self, hother p hnpp.symm, hdrop] at h1 h2
      rw [hentry, hfile]
      omega
    · rcases eq_or_ne q p with rfl | hq
      · rw [update_self, hother q hnpp.symm, hdrop]
        have h1 := h.refs.share q e
        have h2 := cwdRef_nonneg (s.proc q) e
        split_ifs with he
        · subst he
          unfold share
          omega
        · omega
      · rw [update_of_ne hq]
        rcases eq_or_ne q np with rfl | hqn
        · rw [hnew]
          have := h.refs.share q e
          split_ifs <;> omega
        · rw [hother q hqn]
          exact h.refs.share q e
  · refine h.locks.frame (fun _ => by rw [hentry]) (fun q e => by rw [update_same Local.lock hllock]) (fun q e he => ?_)
      (update_same Local.ip (by rw [hl]))
    rcases eq_or_ne q p with rfl | hq
    · have hne : e ≠ i := by
        rintro rfl
        exact he hlock
      rw [update_self, hother q hnpp.symm, hdrop, if_neg hne]
      omega
    · have hqn : q ≠ np := by
        rintro rfl
        rw [hidle] at he
        exact he rfl
      rw [update_of_ne hq, hother q hqn]
  · exact h.ops.frame (by rw [hs]; rfl) (by rw [hs]; rfl) (update_same Local.inOp (by rw [hl]))
  · have hofile : ∀ q, (s'.proc q).ofile = (s.proc q).ofile := by
      rw [hs]
      exact same_setProc Proc.ofile np _ fun _ => rfl
    exact h.files.frame (fun _ => by rw [hfile]) (fun _ => by rw [hfile]) hofile (update_same Local.fown (by rw [hl]))
      (update_same Local.desc (by rw [hl])) (update_same Local.ip (by rw [hl])) (update_same Local.fresh (by rw [hl]))
  · refine ⟨fun q v hq => ?_, fun q np' hq => ?_, fun q q' np' hq hq' => ?_, fun q hq => ?_, fun q hq => ?_⟩
    · rw [update_same Local.cwd hlcwd] at hq
      have hqn : q ≠ np := by
        rintro rfl
        rw [hidle] at hq
        cases hq
      rw [hother q hqn]
      exact h.procs.cwd q v hq
    · obtain ⟨hne, hq⟩ := hchild q np' hq
      have hnp' : np' ≠ np := by
        rintro rfl
        exact hne (h.procs.inj q p np' hq hnp)
      rw [hother np' hnp']
      exact h.procs.child q np' hq
    · exact h.procs.inj q q' np' (hchild q np' hq).2 (hchild q' np' hq').2
    · have hqn : q ≠ np := by
        rintro rfl
        rw [hself] at hq
        rcases hq with hq | hq <;> cases hq
      rw [hother q hqn] at hq ⊢
      exact h.procs.dead q hq
    · have hqn : q ≠ np := by
        rintro rfl
        rw [hself] at hq
        exact hq rfl
      rw [hother q hqn] at hq
      rw [idle_update halive q hq]
      exact h.procs.idle q hq

end

end Xv6.Sys
