import Mathlib.Tactic.Common

/-!
# Commands: state, failure, and what holds at both ends

A command changes the state and returns a value or fails. A failed command keeps the state it
failed in. `wp x Q E s` says that `x`, started in `s`, returns with `Q` or fails with `E`.
-/

namespace Lib

def Cmd (σ ε α : Type) : Type := σ → Except ε α × σ

namespace Cmd

variable {σ ε α β : Type}

protected def bind (x : Cmd σ ε α) (f : α → Cmd σ ε β) : Cmd σ ε β := fun s =>
  match x s with
  | (.ok a, s') => f a s'
  | (.error e, s') => (.error e, s')

instance : Monad (Cmd σ ε) where
  pure a := fun s => (.ok a, s)
  bind := Cmd.bind

def fail (e : ε) : Cmd σ ε α := fun s => (.error e, s)

def get : Cmd σ ε σ := fun s => (.ok s, s)

def modify (f : σ → σ) : Cmd σ ε Unit := fun s => (.ok (), f s)

/-- `for (i = 0; i < n; i++) body(i)` -/
def forTo (n : Nat) (body : Nat → Cmd σ ε Unit) : Cmd σ ε Unit :=
  match n with
  | 0 => pure ()
  | n + 1 => do forTo n body; body n

def forEach (body : α → Cmd σ ε Unit) : List α → Cmd σ ε Unit
  | [] => pure ()
  | a :: l => do body a; forEach body l

def wp (x : Cmd σ ε α) (Q : α → σ → Prop) (E : ε → σ → Prop) (s : σ) : Prop :=
  match x s with
  | (.ok a, s') => Q a s'
  | (.error e, s') => E e s'

section

variable (Q : β → σ → Prop) (E : ε → σ → Prop) (s : σ)

@[simp]
theorem wp_pure (b : β) : wp (pure b : Cmd σ ε β) Q E s ↔ Q b s := Iff.rfl

@[simp]
theorem wp_fail (e : ε) : wp (fail e : Cmd σ ε β) Q E s ↔ E e s := Iff.rfl

@[simp]
theorem wp_get (Q : σ → σ → Prop) : wp (get : Cmd σ ε σ) Q E s ↔ Q s s := Iff.rfl

@[simp]
theorem wp_modify (Q : Unit → σ → Prop) (f : σ → σ) : wp (modify f : Cmd σ ε Unit) Q E s ↔ Q () (f s) := Iff.rfl

theorem bind_apply (x : Cmd σ ε α) (f : α → Cmd σ ε β) :
    (x >>= f) s = match x s with
      | (.ok a, s') => f a s'
      | (.error e, s') => (.error e, s') := rfl

@[simp]
theorem wp_bind (x : Cmd σ ε α) (f : α → Cmd σ ε β) :
    wp (x >>= f) Q E s ↔ wp x (fun a s' => wp (f a) Q E s') E s := by
  unfold wp
  rw [bind_apply]
  split <;> rename_i h <;> split at h <;> simp_all

end

theorem wp_mono (x : Cmd σ ε α) (Q Q' : α → σ → Prop) (E E' : ε → σ → Prop) (s : σ) (h : wp x Q E s)
    (hq : ∀ a s', Q a s' → Q' a s') (he : ∀ e s', E e s' → E' e s') : wp x Q' E' s := by
  unfold wp at h ⊢
  split <;> simp_all

theorem wp_seq {x : Cmd σ ε α} {f : α → Cmd σ ε β} {P : α → σ → Prop} {Q : β → σ → Prop} {E : ε → σ → Prop} {s : σ}
    (hx : wp x P E s) (hf : ∀ a s', P a s' → wp (f a) Q E s') : wp (x >>= f) Q E s := by
  rw [wp_bind]
  exact wp_mono _ _ _ _ _ _ hx hf (fun _ _ h => h)

theorem wp_then {x : Cmd σ ε α} {f : α → Cmd σ ε β} {P : α → σ → Prop} {Q : β → σ → Prop} {E : ε → σ → Prop} {s : σ}
    (hx : wp x P (fun _ _ => False) s) (hf : ∀ a s', P a s' → wp (f a) Q E s') : wp (x >>= f) Q E s :=
  wp_seq (wp_mono _ _ _ _ _ _ hx (fun _ _ h => h) fun _ _ h => h.elim) hf

theorem wp_forTo (n : Nat) (body : Nat → Cmd σ ε Unit) (I : Nat → σ → Prop) (E : ε → σ → Prop) (s : σ) (h0 : I 0 s)
    (hstep : ∀ i < n, ∀ s, I i s → wp (body i) (fun _ => I (i + 1)) E s) :
    wp (forTo n body) (fun _ => I n) E s := by
  induction n with
  | zero => exact h0
  | succ n ih =>
    rw [forTo, wp_bind]
    apply wp_mono _ _ _ _ _ _ (ih (fun i hi => hstep i (by omega)))
    · intro _ s' h; exact hstep n (by omega) s' h
    · intro e s' h; exact h

theorem wp_forEach (body : α → Cmd σ ε Unit) (I : List α → σ → Prop) (E : ε → σ → Prop)
    (hstep : ∀ a l s, I (a :: l) s → wp (body a) (fun _ => I l) E s) (l : List α) (s : σ) (h : I l s) :
    wp (forEach body l) (fun _ => I []) E s := by
  induction l generalizing s with
  | nil => exact h
  | cons a l ih => exact wp_seq (hstep a l s h) (fun _ s' hs' => ih s' hs')

theorem wp_ok (x : Cmd σ ε α) (Q : α → σ → Prop) (E : ε → σ → Prop) (s s' : σ) (a : α) (h : wp x Q E s)
    (hx : x s = (.ok a, s')) : Q a s' := by
  unfold wp at h; rw [hx] at h; exact h

theorem wp_total (x : Cmd σ ε α) (Q : α → σ → Prop) (s : σ) (h : wp x Q (fun _ _ => False) s) :
    ∃ a s', x s = (.ok a, s') ∧ Q a s' := by
  unfold wp at h
  split at h
  · rename_i a s' he; exact ⟨a, s', he, h⟩
  · exact h.elim

def zoom {τ ε' : Type} (get : τ → σ) (set : τ → σ → τ) (err : ε → ε') (x : Cmd σ ε α) : Cmd τ ε' α := fun t =>
  match x (get t) with
  | (.ok a, s) => (.ok a, set t s)
  | (.error e, s) => (.error (err e), set t s)

theorem wp_zoom {τ ε' : Type} (get : τ → σ) (set : τ → σ → τ) (err : ε → ε') (x : Cmd σ ε α) (Q : α → τ → Prop)
    (E : ε' → τ → Prop) (t : τ) :
    wp (zoom get set err x) Q E t ↔ wp x (fun a s => Q a (set t s)) (fun e s => E (err e) (set t s)) (get t) := by
  unfold wp zoom
  rcases x (get t) with ⟨_ | _, s⟩ <;> rfl

def Returns (x : Cmd σ ε α) (s : σ) (a : α) (s' : σ) : Prop := x s = (.ok a, s')

theorem Returns.seq {x : Cmd σ ε α} {f : α → Cmd σ ε β} {s s₁ s' : σ} {a : α} {b : β} (hx : Returns x s a s₁)
    (hf : Returns (f a) s₁ b s') : Returns (x >>= f) s b s' := by
  unfold Returns at hx
  unfold Returns
  rw [bind_apply, hx]
  exact hf

theorem returns_of_fst {x : Cmd σ ε α} {s : σ} {a : α} (h : (x s).1 = .ok a) : Returns x s a (x s).2 := Prod.ext h rfl

theorem returns_pure (a : α) (s : σ) : Returns (pure a : Cmd σ ε α) s a s := rfl

theorem returns_get {f : σ → Cmd σ ε β} {s s' : σ} {b : β} (h : Returns (f s) s b s') : Returns (get >>= f) s b s' := h

theorem returns_modify {f : Unit → Cmd σ ε β} {g : σ → σ} {s s' : σ} {b : β} (h : Returns (f ()) (g s) b s') :
    Returns (modify g >>= f) s b s' := h

end Cmd

end Lib
