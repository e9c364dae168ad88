import Xv6.Lib.Cmd

/-!
# Programs as trees of atomic operations

`A` are the operations and `R a` is what operation `a` returns. A program can be run alone, with
one command per operation, or one operation at a time next to other programs.
-/

namespace Lib

inductive Prog (A : Type) (R : A → Type) (α : Type) where
  | ret (x : α)
  | act (a : A) (k : R a → Prog A R α)

namespace Prog

variable {A : Type} {R : A → Type} {α β σ ε L : Type}

protected def bind : Prog A R α → (α → Prog A R β) → Prog A R β
  | ret x, f => f x
  | act a k, f => act a fun r => (k r).bind f

instance : Monad (Prog A R) where
  pure := ret
  bind := Prog.bind

def lift (a : A) : Prog A R (R a) := act a ret

def run (perform : (a : A) → Cmd σ ε (R a)) : Prog A R α → Cmd σ ε α
  | ret x => pure x
  | act a k => perform a >>= fun r => run perform (k r)

section

variable (perform : (a : A) → Cmd σ ε (R a)) (Q : β → σ → Prop) (E : ε → σ → Prop) (s : σ)

@[simp]
theorem wp_run_lift (a : A) (Q : R a → σ → Prop) : Cmd.wp (run perform (lift a)) Q E s ↔ Cmd.wp (perform a) Q E s := by
  rw [lift, run, Cmd.wp_bind]
  rfl

@[simp]
theorem wp_run_bind (p : Prog A R α) (f : α → Prog A R β) :
    Cmd.wp (run perform (p >>= f)) Q E s ↔ Cmd.wp (run perform p)
      (fun x s => Cmd.wp (run perform (f x)) Q E s) E s := by
  induction p generalizing s with
  | ret x => rfl
  | act a k ih =>
    change Cmd.wp (perform a >>= fun r => run perform ((k r).bind f)) Q E s ↔
      Cmd.wp (perform a >>= fun r => run perform (k r)) _ E s
    rw [Cmd.wp_bind, Cmd.wp_bind]
    have hk : (fun r s' => Cmd.wp (run perform ((k r).bind f)) Q E s') =
        fun r s' => Cmd.wp (run perform (k r)) (fun x s => Cmd.wp (run perform (f x)) Q E s) E s' := by
      funext r s'
      exact propext (ih r s')
    rw [hk]

end

/-- `l` is what a program knows. Operation `a` needs `pre l a`, only results with `ok l a r` occur, and
after it the program may know any `l'` with `next l a r l'`. -/
structure Rules (L A : Type) (R : A → Type) where
  pre : L → A → Prop
  ok : L → (a : A) → R a → Prop
  next : L → (a : A) → R a → L → Prop

/-- Every operation finds what it needs, and at the end `Q` holds. -/
def Safe (G : Rules L A R) : Prog A R α → (α → L → Prop) → L → Prop
  | ret x, Q, l => Q x l
  | act a k, Q, l => G.pre l a ∧ ∀ r, G.ok l a r → ∃ l', G.next l a r l' ∧ Safe G (k r) Q l'

section

variable (G : Rules L A R) (Q : β → L → Prop) (l : L)

@[simp]
theorem safe_pure (x : β) : Safe G (pure x : Prog A R β) Q l ↔ Q x l := Iff.rfl

@[simp]
theorem safe_bind (p : Prog A R α) (f : α → Prog A R β) :
    Safe G (p >>= f) Q l ↔ Safe G p (fun x l => Safe G (f x) Q l) l := by
  induction p generalizing l with
  | ret x => rfl
  | act a k ih =>
    refine and_congr Iff.rfl (forall_congr' fun r => imp_congr_right fun _ => exists_congr fun l' => ?_)
    exact and_congr Iff.rfl (ih r l')

variable {G Q l} in
theorem Safe.mono {p : Prog A R β} {Q' : β → L → Prop} (h : Safe G p Q l) (hq : ∀ x l, Q x l → Q' x l) :
    Safe G p Q' l := by
  induction p generalizing l with
  | ret x => exact hq x l h
  | act a k ih =>
    refine ⟨h.1, fun r hr => ?_⟩
    obtain ⟨l', hn, hs⟩ := h.2 r hr
    exact ⟨l', hn, ih r hs⟩

end

end Prog

end Lib
