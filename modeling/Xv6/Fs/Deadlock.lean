import Mathlib
import Xv6.Fs.Births
import Xv6.Fs.Session
import Xv6.Lib.Acyclic

/-!
# Waiting for inode locks

Processes run system calls next to each other, one operation at a time. A process that finds a lock
held sleeps until it is released. As long as `iput` does not wait with locks that
are below the inode in the tree, no processes wait for each other in a circle.
-/

open Lib Function

namespace Xv6

variable {nproc : Nat} {s s' : Fs nproc} {L : Fin nproc → Local} {p : Fin nproc} {a : Op} {r : Res a} {l l' : Local}
  {g : Graph} {birth : Nat → Nat} {clock : Nat}

structure Shared (s : Fs nproc) (L : Fin nproc → Local) (birth : Nat → Nat) (clock : Nat) : Prop where
  counted : Counted s L
  owned : Owned s L
  valid : ∀ i, (s.inode i).valid = true → (s.dinode i).type ≠ .free
  knows : ∀ q, Knows s.dinode birth (L q)
  freeing : ∀ q i, (L q).freeing = some i → ∀ q', (L q').file ≠ some i
  order : s.dinode.Order birth clock

theorem next_freeing (hpre : a.pre l) (hp : a.perform p s = (.ok r, s')) (hn : Op.next l a r l') (i : Nat)
    (h : l'.freeing = some i) :
    l.freeing = some i ∨ l.drop = some i ∧ (s.inode i).ref = 1 ∧ l'.file = l.file := by
  cases a with
  | cwd => rcases hn with rfl | ⟨-, rfl⟩ <;> exact .inl h
  | setCwd j | setIp f j => obtain ⟨-, h', -, rfl⟩ := hn; exact .inl h
  | iput j => obtain ⟨h', f, -, -, rfl⟩ := hn; exact .inl h
  | iunlock j | releasesleep j | free j => cases hn; cases h
  | readRef j =>
    cases hp
    rcases hn with rfl | ⟨hr, rfl⟩
    · exact .inl h
    · cases h
      exact .inr ⟨hpre.2, hr, rfl⟩
  | type j => rcases hn with rfl | ⟨-, -, -, rfl⟩ <;> exact .inl h
  | scan d name => rcases hn with rfl | ⟨_, _, -, -, -, rfl⟩ <;> exact .inl h
  | ialloc j t => rcases hn with rfl | ⟨-, d, -, rfl⟩ <;> exact .inl h
  | fileclose f =>
    rcases r with _ | j
    · rw [hn.1 rfl] at h
      exact .inl h
    · rw [hn.2 j rfl] at h
      exact .inl h
  | _ => cases hn; exact .inl h

theorem next_file (hpre : a.pre l) (hn : Op.next l a r l') (i : Nat) (h : l'.file = some i) :
    l.file = some i ∨ i ∈ l.locks ∧ l'.freeing = none := by
  cases a with
  | cwd => rcases hn with rfl | ⟨-, rfl⟩ <;> exact .inl h
  | setCwd j | setIp f j => obtain ⟨-, h', -, rfl⟩ := hn; exact .inl h
  | iput j =>
    obtain ⟨h', f, -, hf, rfl⟩ := hn
    rcases hf with rfl | ⟨rfl, -⟩
    · cases h
    · exact .inl h
  | readRef j => rcases hn with rfl | ⟨-, rfl⟩ <;> exact .inl h
  | type j =>
    rcases hn with rfl | ⟨-, -, -, rfl⟩
    · exact .inl h
    · cases h
      exact .inr hpre
  | scan d name => rcases hn with rfl | ⟨_, _, -, -, -, rfl⟩ <;> exact .inl h
  | ialloc j t => rcases hn with rfl | ⟨-, d, -, rfl⟩ <;> exact .inl h
  | fileclose f =>
    rcases r with _ | j
    · rw [hn.1 rfl] at h
      exact .inl h
    · rw [hn.2 j rfl] at h
      exact .inl h
  | _ => cases hn; exact .inl h

theorem Fs.valid_setInode (s : Fs nproc) (i : Nat) (f : Inode nproc → Inode nproc)
    (hf : ∀ v, (f v).valid = true → v.valid = true)
    (j : Nat) (h : ((s.setInode i f).inode j).valid = true) : (s.inode j).valid = true := by
  by_cases hj : j = i
  · subst hj
    rw [Fs.setInode_inode_self] at h
    exact hf _ h
  · rwa [Fs.setInode_inode_ne _ _ _ _ hj] at h

theorem perform_valid (hvalid : ∀ i, (s.inode i).valid = true → (s.dinode i).type ≠ .free)
    (hp : a.perform p s = (.ok r, s')) (i : Nat) (hi : (s'.inode i).valid = true) : (s'.dinode i).type ≠ .free := by
  cases a with
  | load j =>
    dsimp only [Op.perform] at hp
    split_ifs at hp with h1 h2 <;> cases hp
    · exact hvalid i hi
    · by_cases hij : i = j
      · subst hij
        exact h2
      · rw [Fs.setInode_inode_ne _ _ _ _ hij] at hi
        exact hvalid i hi
  | free j =>
    cases hp
    have hij : i ≠ j := by
      rintro rfl
      simp at hi
    rw [Fs.setInode_inode_ne _ _ _ _ hij] at hi
    rw [Fs.setInode_dinode]
    unfold Fs.setDinode
    dsimp only
    rw [update_of_ne hij]
    exact hvalid i hi
  | ialloc j t =>
    dsimp only [Op.perform] at hp
    split_ifs at hp with h1 <;> cases hp
    · have := hvalid i hi
      have hij : i ≠ j := by
        rintro rfl
        exact this h1
      unfold Fs.setDinode
      dsimp only
      rwa [update_of_ne hij]
    · exact hvalid i hi
  | iget j =>
    dsimp only [Op.perform] at hp
    split_ifs at hp <;> cases hp
    · exact hvalid i (Fs.valid_setInode s j _ (by intro _ h; exact h) i hi)
    · exact hvalid i (Fs.valid_setInode s j _ (by intro _ h; cases h) i hi)
  | idup j | decRef j | releasesleep j =>
    cases hp
    exact hvalid i (Fs.valid_setInode s j _ (by intro _ h; exact h) i hi)
  | ilock j | iput j | iunlock j =>
    dsimp only [Op.perform, Op.acquiresleep] at hp
    split_ifs at hp <;> cases hp
    exact hvalid i (Fs.valid_setInode s j _ (by intro _ h; exact h) i hi)
  | addNlink j n =>
    have htype := s.dinode.addNlink_type j n i
    rw [perform_dinode hp, Op.disk, htype]
    cases hp
    exact hvalid i hi
  | init j major minor =>
    rw [perform_dinode hp, Op.disk, Graph.init_type]
    cases hp
    exact hvalid i hi
  | insert d name j =>
    rw [perform_dinode hp, Op.disk, Graph.insert_apply]
    dsimp only [Op.perform] at hp
    split_ifs at hp <;> cases hp
    exact hvalid i hi
  | erase d off =>
    rw [perform_dinode hp, Op.disk, Graph.erase_type]
    cases hp
    exact hvalid i hi
  | scan d name | fileclose f =>
    dsimp only [Op.perform] at hp
    split_ifs at hp <;> cases hp <;> exact hvalid i hi
  | filealloc | fdalloc f =>
    dsimp only [Op.perform] at hp
    split at hp <;> cases hp <;> exact hvalid i hi
  | panic msg => exact r.elim
  | _ => cases hp; exact hvalid i hi

theorem perform_ok (h : Shared s L birth clock) (hp : a.perform p s = (.ok r, s')) : Op.ok (L p) a r := by
  cases a with
  | ilock i | iput i =>
    dsimp only [Op.perform, Op.acquiresleep] at hp
    split_ifs at hp with h1 <;> cases hp
    all_goals
      intro hi
      have := (h.owned i p).mpr hi
      simp_all
  | type i =>
    cases hp
    exact fun hi => ((h.knows p).live i hi).2
  | _ => trivial

theorem perform_freeing (h : Shared s L birth clock) (hpre : a.pre (L p)) (hp : a.perform p s = (.ok r, s'))
    (hn : Op.next (L p) a r l') (q : Fin nproc) (i : Nat) (hf : (update L p l' q).freeing = some i) (q' : Fin nproc) :
    (update L p l' q').file ≠ some i := by
  intro hfile
  -- A process with a reference to a file keeps the count above the reference that is dropped.
  have hcount : (L p).drop = some i → (s.inode i).ref = 1 → ∀ q, (L q).file ≠ some i := by
    intro hdrop hone q hq
    have hown := ((h.knows q).file i hq).1
    have hside : 0 < sideRefs (L p).drop (L p).taken (s.cwd p) i := by
      rw [hdrop, sideRefs_drop, if_pos rfl]
      omega
    by_cases hqp : q = p
    · subst hqp
      have := h.counted.one q i
      unfold Local.refs at this
      omega
    · have := h.counted.two hqp i
      unfold Local.refs at this
      omega
  have hlocked : i ∈ (L p).locks → l'.freeing = none → False := by
    intro hi hnone
    by_cases hqp : q = p
    · subst hqp
      rw [update_self, hnone] at hf
      cases hf
    · rw [update_of_ne hqp] at hf
      exact h.owned.disjoint hqp i hi ((h.knows q).freeing i hf)
  by_cases hqp : q = p
  · subst hqp
    rw [update_self] at hf
    rcases next_freeing hpre hp hn i hf with hf | ⟨hdrop, hone, hsame⟩
    · by_cases hq' : q' = q
      · subst hq'
        rw [update_self] at hfile
        rcases next_file hpre hn i hfile with hfile | ⟨hi, hnone⟩
        · exact h.freeing q' i hf q' hfile
        · exact hlocked hi hnone
      · rw [update_of_ne hq'] at hfile
        exact h.freeing q i hf q' hfile
    · by_cases hq' : q' = q
      · subst hq'
        rw [update_self, hsame] at hfile
        exact hcount hdrop hone q' hfile
      · rw [update_of_ne hq'] at hfile
        exact hcount hdrop hone q' hfile
  · rw [update_of_ne hqp] at hf
    by_cases hq' : q' = p
    · subst hq'
      rw [update_self] at hfile
      rcases next_file hpre hn i hfile with hfile | ⟨hi, -⟩
      · exact h.freeing q i hf q' hfile
      · exact h.owned.disjoint hqp i hi ((h.knows q).freeing i hf)
    · rw [update_of_ne hq'] at hfile
      exact h.freeing q i hf q' hfile

theorem spares_other (h : Shared s L birth clock) (hpre : a.pre (L p)) {q : Fin nproc} (hq : q ≠ p) :
    a.Spares (L q) := by
  cases a with
  | erase d off =>
    intro i he
    have hd := ((h.knows q).entry d i he).1
    exact h.owned.disjoint hq d hpre ((h.knows q).dirs d hd).1
  | free i =>
    have hi := h.owned.disjoint hq i ((h.knows p).freeing i hpre)
    exact ⟨fun hl => hi ((h.knows q).live i hl).1, fun hd => hi ((h.knows q).dirs i hd).1, h.freeing p i hpre q⟩
  | _ => trivial

theorem spares_own (h : Shared s L birth clock) (hpre : a.pre (L p)) (hn : Op.next (L p) a r l') : a.Spares l' := by
  cases a with
  | erase d off =>
    cases hn
    exact fun i => nofun
  | free i =>
    cases hn
    exact ⟨by simp, by simp, h.freeing p i hpre p⟩
  | _ => trivial

theorem perform_shared (h : Shared s L birth clock) (hpre : a.pre (L p)) (hp : a.perform p s = (.ok r, s'))
    (hn : Op.next (L p) a r l') :
    (∃ birth' clock', Shared s' (update L p l') birth' clock') ∧
      ∀ q, q ≠ p → ∀ d i, d ∈ (L q).locks → s.dinode.HasEntry d i → s'.dinode.HasEntry d i := by
  have hsees := perform_sees h.valid hp
  have hborn : ∀ i, a.born r = some i → (s.dinode i).type = .free := by
    intro i hi
    cases a with
    | ialloc j t =>
      rcases r with _ | _
      · cases hi
      · cases hi
        exact hsees rfl
    | _ => cases hi
  have hlt := nextBirth_lt h.order (a.born r) hborn
  have hknows : ∀ q, Knows s.dinode (nextBirth birth clock (a.born r)) (L q) :=
    fun q => (h.knows q).rebirth fun d i hd hi => hlt d i hd (.inl hi)
  rw [perform_dinode hp]
  refine ⟨⟨nextBirth birth clock (a.born r), clock + 1, perform_counted h.counted hpre hp hn,
    perform_owned h.owned hpre hp hn,
    perform_valid h.valid hp, fun q => ?_, perform_freeing h hpre hp hn, ?_⟩, fun q hq d i hd he => ?_⟩
  · rw [perform_dinode hp]
    by_cases hq : q = p
    · subst hq
      rw [update_self]
      refine knows_disk (knows_next (hknows q) hpre hsees hn fun d i hd hi => ?_) hsees (spares_own h hpre hn)
      exact hlt d i (by rw [((h.knows q).dirs d hd).2]; simp) (.inr hi)
    · rw [update_of_ne hq]
      exact knows_disk (hknows q) hsees (spares_other h hpre hq)
  · rw [perform_dinode hp]
    exact order_disk h.order (h.knows p) hpre hsees
  · exact entry_disk h.order (h.knows p) hpre hsees d i (h.owned.disjoint hq.symm d hd) he

namespace Waits

/-- Each process has the rest of its call, `ret` between two calls, and the lock it sleeps on. -/
structure State (nproc : Nat) where
  fs : Fs nproc
  prog : Fin nproc → P Int
  asleep : Fin nproc → Option Nat

inductive Act (nproc : Nat) where
  | call (p : Fin nproc) (c : Call)
  | step (p : Fin nproc)

/-- `releasesleep` wakes all that sleep on the lock. A panic is no step. -/
def step (s : State nproc) : Act nproc → Option (State nproc)
  | .call p c =>
    match s.prog p with
    | .ret _ => some { s with prog := update s.prog p c.prog }
    | .act _ _ => none
  | .step p =>
    if s.asleep p ≠ none then none
    else match s.prog p with
      | .ret _ => none
      | .act a k =>
        match a.perform p s.fs with
        | (.ok r, fs) => some ⟨fs, update s.prog p (k r), fun q => if s.asleep q = a.gives then none else s.asleep q⟩
        | (.error .hang, _) => some { s with asleep := update s.asleep p a.takes }
        | (.error _, _) => none

/-- Only directories have entries, and a name in a directory leads to a deeper directory, if it leads to one. -/
def Tree (g : Graph) : Prop :=
  (∀ d, (g d).ents ≠ [] → (g d).type = .dir) ∧
    ∃ (depth : Nat → Nat) (bound : Nat), (∀ i, depth i < bound) ∧ ∀ d i, g.HasEntry d i → (g i).type = .dir →
    depth d < depth i

structure Init (s : State nproc) : Prop where
  ref : ∀ i, ∑ p, (if s.fs.cwd p = i then 1 else 0) + ∑ f, ipRefs (s.fs.file f) i ≤ (s.fs.inode i).ref
  owner : ∀ i, (s.fs.inode i).owner = none
  valid : ∀ i, (s.fs.inode i).valid = true → (s.fs.dinode i).type ≠ .free
  tree : Tree s.fs.dinode
  prog : ∀ p, ∃ x, s.prog p = .ret x
  asleep : ∀ p, s.asleep p = none

def calls (nproc : Nat) : System (State nproc) (Act nproc) := ⟨Init, step⟩

def WaitsFor (s : State nproc) (p q : Fin nproc) : Prop := ∃ i, s.asleep p = some i ∧ (s.fs.inode i).owner = some q

/-- When `iput` finds the lock held, the caller has only directories locked that have a name for the inode. -/
def PutsDown (s : State nproc) : Act nproc → Prop
  | .call _ _ => True
  | .step p => ∀ i k, s.prog p = .act (.iput i) k → (s.fs.inode i).owner ≠ none →
      ∀ d, (s.fs.inode d).owner = some p → s.fs.dinode.HasEntry d i

structure Inv (s : State nproc) (L : Fin nproc → Local) (birth : Nat → Nat) (clock : Nat) : Prop where
  shared : Shared s.fs L birth clock
  obeys : ∀ p, Obeys (s.prog p) (fun _ l => l.Rest .idle) (L p)
  waits : ∀ p i, s.asleep p = some i → ∀ d ∈ (L p).locks, s.fs.dinode.HasEntry d i ∨ (L p).young = some (d, i)

def Local.idle : Local := ⟨.idle, none, none, ∅, ∅, none, none⟩

theorem init_inv (s : State nproc) (h : Init s) : ∃ L birth clock, Inv s L birth clock := by
  obtain ⟨hents, depth, bound, hbound, hdepth⟩ := h.tree
  refine ⟨fun _ => Local.idle, depth, bound, ⟨fun i => ?_, fun i q => ?_, h.valid, fun q => ?_, nofun, hdepth,
    hents, hbound⟩, fun p => ?_, fun p i hi => ?_⟩
  · have := h.ref i
    simpa [Local.refs, Local.idle, Core.idle, sideRefs] using this
  · simp [h.owner i, Local.idle, Core.idle]
  · exact ⟨nofun, nofun, nofun, nofun, nofun, nofun⟩
  · obtain ⟨x, hx⟩ := h.prog p
    rw [hx]
    exact ⟨rfl, rfl, rfl⟩
  · rw [h.asleep p] at hi
    cases hi

theorem perform_hang {fs fs' : Fs nproc} (hp : a.perform p fs = (.error .hang, fs')) :
    ∃ i, (a = .ilock i ∨ a = .iput i) ∧ (fs.inode i).owner ≠ none := by
  cases a with
  | ilock i =>
    dsimp only [Op.perform, Op.acquiresleep] at hp
    split_ifs at hp with h1 h2
    · cases hp
    · cases hp
    · exact ⟨i, .inl rfl, h2⟩
  | iput i =>
    dsimp only [Op.perform, Op.acquiresleep] at hp
    split_ifs at hp with h1
    · cases hp
    · exact ⟨i, .inr rfl, h1⟩
  | iget j | load j | iunlock j | scan d name | insert d name j | ialloc j t | fileclose f =>
    dsimp only [Op.perform] at hp
    split_ifs at hp <;> cases hp
  | filealloc | fdalloc f =>
    dsimp only [Op.perform] at hp
    split at hp <;> cases hp
  | _ => cases hp

theorem call_inv {s s' : State nproc} {L : Fin nproc → Local} (h : Inv s L birth clock) (p : Fin nproc) (c : Call)
    (hs : step s (.call p c) = some s') : Inv s' L birth clock := by
  unfold step at hs
  dsimp only at hs
  rcases hprog : s.prog p with x | ⟨a, k⟩ <;> rw [hprog] at hs <;> cases hs
  refine ⟨h.shared, fun q => ?_, h.waits⟩
  dsimp only
  by_cases hq : q = p
  · subst hq
    have hrest := h.obeys q
    rw [hprog] at hrest
    rw [update_self]
    exact call_obeys c hrest
  · rw [update_of_ne hq]
    exact h.obeys q

theorem sleep_inv {s : State nproc} {L : Fin nproc → Local} (h : Inv s L birth clock) (p : Fin nproc) (a : Op)
    (k : Res a → P Int) (hprog : s.prog p = .act a k) (hc : PutsDown s (.step p)) (fs : Fs nproc)
    (hp : a.perform p s.fs = (.error .hang, fs)) :
    Inv { s with asleep := update s.asleep p a.takes } L birth clock := by
  refine ⟨h.shared, h.obeys, fun q i hi d hd => ?_⟩
  dsimp only at hi ⊢
  by_cases hq : q = p
  · subst hq
    rw [update_self] at hi
    have hsafe := h.obeys q
    rw [hprog] at hsafe
    obtain ⟨j, rfl | rfl, hheld⟩ := perform_hang hp
    · cases hi
      rcases hsafe.1 d hd with he | hy
      · exact .inl ((h.shared.knows q).entry d i he).2
      · exact .inr hy
    · cases hi
      exact .inl (hc i k hprog hheld d ((h.shared.owned d q).mpr hd))
  · rw [update_of_ne hq] at hi
    exact h.waits q i hi d hd

theorem step_inv {s s' : State nproc} {L : Fin nproc → Local} (h : Inv s L birth clock) (act : Act nproc)
    (hc : PutsDown s act) (hs : step s act = some s') : ∃ L' birth' clock', Inv s' L' birth' clock' := by
  rcases act with ⟨p, c⟩ | p
  · exact ⟨L, birth, clock, call_inv h p c hs⟩
  unfold step at hs
  dsimp only at hs
  split_ifs at hs with hawake
  rcases hprog : s.prog p with x | ⟨a, k⟩ <;> rw [hprog] at hs
  · cases hs
  dsimp only at hs
  rcases hperform : a.perform p s.fs with ⟨e | r, fs⟩ <;> rw [hperform] at hs
  · rcases e with msg | _ | _ <;> cases hs
    exact ⟨L, birth, clock, sleep_inv h p a k hprog hc fs hperform⟩
  cases hs
  have hsafe := h.obeys p
  rw [hprog] at hsafe
  obtain ⟨hpre, hnext⟩ := hsafe
  obtain ⟨l', hn, hobeys⟩ := hnext r (perform_ok h.shared hperform)
  obtain ⟨⟨birth', clock', hshared⟩, hkept⟩ := perform_shared h.shared hpre hperform hn
  refine ⟨update L p l', birth', clock', hshared, fun q => ?_, fun q i hi d hd => ?_⟩
  · dsimp only
    by_cases hq : q = p
    · subst hq
      rw [update_self, update_self]
      exact hobeys
    · rw [update_of_ne hq, update_of_ne hq]
      exact h.obeys q
  · dsimp only at hi ⊢
    split_ifs at hi
    have hq : q ≠ p := by
      rintro rfl
      rw [not_not.mp hawake] at hi
      cases hi
    rw [update_of_ne hq] at hd ⊢
    exact (h.waits q i hi d hd).imp_left (hkept q hq d i hd)

theorem Inv.older {s : State nproc} {L : Fin nproc → Local} (h : Inv s L birth clock) {p : Fin nproc} {d i : Nat}
    (hp : s.asleep p = some i) (hd : (s.fs.inode d).owner = some p) :
    (s.fs.dinode d).type = .dir ∧ ((s.fs.dinode i).type = .dir → birth d < birth i) := by
  rcases h.waits p i hp d ((h.shared.owned d p).mp hd) with he | hy
  · exact ⟨h.shared.order.dir he, h.shared.order.entry d i he⟩
  · obtain ⟨hdirs, hlt⟩ := (h.shared.knows p).young d i hy
    exact ⟨((h.shared.knows p).dirs d hdirs).2, fun _ => hlt⟩

theorem Inv.acyclic {s : State nproc} {L : Fin nproc → Local} (h : Inv s L birth clock) (p : Fin nproc) :
    ¬ Relation.TransGen (WaitsFor s) p p := by
  refine acyclic_of_rank (fun p => ((s.asleep p).map birth).getD 0) ?_ p
  rintro x y z u ⟨i, hx, hiy⟩ ⟨j, hy, hjz⟩ ⟨k, hz, -⟩
  simp only [hx, hy, Option.map_some, Option.getD_some]
  exact (h.older hy hiy).2 (h.older hz hjz).1

/-- **No circle of waiting processes.** While `iput` waits only with locks on directories that name the inode, processes
do not wait for each other in a circle. No process waits for itself. -/
theorem waits_acyclic (s : State nproc) (h : (calls nproc).ReachIf PutsDown s) :
    (∀ p, ¬ Relation.TransGen (WaitsFor s) p p) ∧ ∀ p i, s.asleep p = some i → (s.fs.inode i).owner ≠ some p := by
  have hinv : ∃ L birth clock, Inv s L birth clock := by
    refine (calls nproc).reachIf_inv PutsDown (fun s => ∃ L birth clock, Inv s L birth clock) init_inv ?_ s h
    rintro s act s' ⟨L, birth, clock, hi⟩ hc hs
    exact step_inv hi act hc hs
  obtain ⟨L, birth, clock, hi⟩ := hinv
  exact ⟨hi.acyclic, fun p i hp ho => hi.acyclic p (.single ⟨i, hp, ho⟩)⟩

def boot (nproc : Nat) : State nproc := ⟨Session.boot nproc [['f']], fun _ => .ret 0, fun _ => none⟩

theorem mkfs_tree (args : List (List Char)) : Tree (mkfs args) := by
  have hents : ∀ d, (mkfs args d).ents ≠ [] → d = ROOTINO := by
    intro d hd
    by_contra hne
    unfold mkfs at hd
    split_ifs at hd <;> exact hd rfl
  refine ⟨fun d hd => ?_, fun _ => 0, 1, fun _ => Nat.one_pos, fun d i he hi => ?_⟩
  · rw [hents d hd]
    exact (mkfs_linked args).1.1
  obtain rfl := mkfs_dir args i hi
  obtain rfl := hents d he.ne_nil
  obtain ⟨e, he, hei, -, hdot, hdotdot⟩ := he
  have hfiles := List.countP_eq_zero.mp ((countP_fileEnts args 2 ROOTINO).trans (if_neg (by simp [ROOTINO])))
  rw [mkfs_root] at he
  simp only [rootEnts, List.cons_append, List.mem_cons, List.mem_append, List.mem_replicate] at he
  rcases he with rfl | rfl | he | ⟨-, rfl⟩
  · exact absurd rfl hdot
  · exact absurd rfl hdotdot
  · exact absurd hei (by simpa using hfiles e he)
  · cases hei

theorem boot_init (nproc : Nat) : Init (boot nproc) := by
  refine ⟨fun i => ?_, fun _ => rfl, fun i hi => (nomatch hi), mkfs_tree _, fun _ => ⟨0, rfl⟩, fun _ => rfl⟩
  simp [boot, Session.boot, ipRefs, eq_comm]

def linkToDot : List (Act 1) := .call 0 (.link ['f'] ['.']) :: List.replicate 28 (.step 0)

theorem link_to_dot_waits_for_itself : ∃ s, (calls 1).Reach s ∧ WaitsFor s 0 0 := by
  have hrun : ((calls 1).run (boot 1) linkToDot).map (fun s => (s.asleep 0, (s.fs.inode ROOTINO).owner)) =
      some (some ROOTINO, some 0) := by decide +kernel
  obtain ⟨s, hreach, hv⟩ := (calls 1).reach_of_map (boot_init 1) hrun
  simp only [Prod.mk.injEq] at hv
  exact ⟨s, hreach, ROOTINO, hv.1, hv.2⟩

def createAndUnlink : List (Act 2) :=
  .call 0 (.open ['x'] O_CREATE) :: List.replicate 20 (.step 0) ++ .call 1 (.unlink ['x']) ::
  List.replicate 11 (.step 1) ++
    [.step 0]

theorem create_and_unlink_wait_for_each_other : ∃ s, (calls 2).Reach s ∧ WaitsFor s 0 1 ∧ WaitsFor s 1 0 := by
  have hrun : ((calls 2).run (boot 2) createAndUnlink).map
    (fun s => (s.asleep 0, (s.fs.inode ROOTINO).owner, s.asleep 1,
      (s.fs.inode 3).owner)) = some (some ROOTINO, some 1, some 3, some 0) := by decide +kernel
  obtain ⟨s, hreach, hv⟩ := (calls 2).reach_of_map (boot_init 2) hrun
  simp only [Prod.mk.injEq] at hv
  exact ⟨s, hreach, ⟨ROOTINO, hv.1, hv.2.1⟩, 3, hv.2.2⟩

def putsFree (s : State nproc) : Act nproc → Bool
  | .call _ _ => true
  | .step p =>
    match s.prog p with
    | .act (.iput i) _ => (s.fs.inode i).owner = none
    | _ => true

theorem putsDown_of_free (s : State nproc) (act : Act nproc) (h : putsFree s act = true) : PutsDown s act := by
  rcases act with ⟨p, c⟩ | p
  · trivial
  · intro i k hprog hheld
    unfold putsFree at h
    dsimp only at h
    rw [hprog] at h
    exact absurd (of_decide_eq_true h) hheld

def twoLookups : List (Act 2) :=
  .call 0 (.open ['f'] O_RDONLY) :: List.replicate 19 (.step 0) ++ .call 0 (.open ['f'] O_RDONLY) ::
    List.replicate 3 (.step 0) ++ .call 1 (.chdir ['.']) :: List.replicate 3 (.step 1)

theorem waits_acyclic_twoLookups : ∃ s, (calls 2).ReachIf PutsDown s ∧ WaitsFor s 1 0 ∧
    ∀ p, ¬ Relation.TransGen (WaitsFor s) p p := by
  have hrun : ((calls 2).runIf (fun s act => putsFree s act = true) (boot 2) twoLookups).map (fun s => (s.asleep 1,
      (s.fs.inode ROOTINO).owner)) = some (some ROOTINO, some 0) := by decide +kernel
  obtain ⟨s, hreach, hv⟩ := (calls 2).reachIf_of_map (boot_init 2) hrun
  simp only [Prod.mk.injEq] at hv
  have hreach := hreach.mono putsDown_of_free
  exact ⟨s, hreach, ⟨ROOTINO, hv.1, hv.2⟩, (waits_acyclic s hreach).1⟩

def Sound (s : State nproc) : Prop := ∃ L birth clock, Inv { s with asleep := fun _ => none } L birth clock

theorem sound_step (s : State nproc) (act : Act nproc) (s' : State nproc) (h : Sound s) (hs : step s act = some s') :
    Sound s' := by
  obtain ⟨L, birth, clock, hi⟩ := h
  rcases act with ⟨p, c⟩ | p <;> dsimp only [step] at hs
  · rcases hprog : s.prog p with x | ⟨a, k⟩ <;> rw [hprog] at hs <;> cases hs
    exact ⟨L, birth, clock, call_inv hi p c (by simp [step, hprog])⟩
  · split_ifs at hs
    rcases hprog : s.prog p with x | ⟨a, k⟩ <;> rw [hprog] at hs
    · cases hs
    dsimp only at hs
    rcases hp : a.perform p s.fs with ⟨e | r, fs⟩ <;> rw [hp] at hs
    · rcases e with msg | _ | _ <;> cases hs
      exact ⟨L, birth, clock, hi⟩
    · cases hs
      refine step_inv hi (.step p) (fun i k' hk hheld => ?_) (by simp [step, hprog, hp])
      -- an `iput` that goes on has found the lock free
      cases hprog.symm.trans hk
      dsimp only [Op.perform, Op.acquiresleep] at hp
      rw [if_neg hheld] at hp
      cases hp

/-- **Directories stay a tree**, whatever calls run next to each other. -/
theorem directories_stay_a_tree (s : State nproc) (h : (calls nproc).Reach s) : Tree s.fs.dinode := by
  obtain ⟨L, birth, clock, hi⟩ := (calls nproc).reach_inv Sound
    (fun s hs => init_inv _ { hs with asleep := fun _ => rfl }) sound_step s h
  exact ⟨hi.shared.order.ents, birth, clock, hi.shared.order.clock, hi.shared.order.entry⟩

theorem directories_stay_a_tree_stuck : ∃ s, (calls 2).Reach s ∧ WaitsFor s 0 1 ∧ Tree s.fs.dinode := by
  obtain ⟨s, h, hw, -⟩ := create_and_unlink_wait_for_each_other
  exact ⟨s, h, hw, directories_stay_a_tree s h⟩

end Waits

end Xv6
