import Mathlib
import Xv6.Shell.Parser

/-!
# The words as C strings

`nulterminate` writes a NUL behind every word of the tree. A word ends at the end of the input or at a
character that is in no word, so no NUL lands inside a word, in whatever order they are written.
-/

open Lib Cmd Function

namespace Xv6.Shell

variable {x : Input} {s n : Nat} {w : Span} {t cmd : Tree Span}

def Tree.words {α : Type} : Tree α → List α
  | .exec argv => argv
  | .redir cmd file _ _ => cmd.words ++ [file]
  | .pipe left right => left.words ++ right.words
  | .list left right => left.words ++ right.words
  | .back cmd => cmd.words

def terminate (buf : Nat → Char) (ws : List Span) : Nat → Char := ws.foldl (fun buf w => update buf w.eq '\x00') buf

theorem terminate_append (buf : Nat → Char) (ws ws' : List Span) :
    terminate buf (ws ++ ws') = terminate (terminate buf ws) ws' :=
  List.foldl_append

theorem nulterminate_eq (buf : Nat → Char) (t : Tree Span) : nulterminate buf t = terminate buf t.words := by
  induction t generalizing buf with
  | exec argv => rfl
  | redir cmd file mode fd ih =>
    rw [nulterminate, Tree.words, terminate_append, ih]
    rfl
  | pipe left right ihl ihr => rw [nulterminate, Tree.words, terminate_append, ihl, ihr]
  | list left right ihl ihr => rw [nulterminate, Tree.words, terminate_append, ihl, ihr]
  | back cmd ih => exact ih buf

theorem terminate_of_ne (buf : Nat → Char) (ws : List Span) {i : Nat} (hi : ∀ w ∈ ws, w.eq ≠ i) :
    terminate buf ws i = buf i := by
  induction ws generalizing buf with
  | nil => rfl
  | cons w ws ih =>
    rw [terminate, List.foldl_cons]
    refine (ih _ fun w' hw' => hi w' (List.mem_cons_of_mem w hw')).trans ?_
    exact update_of_ne (Ne.symm (hi w List.mem_cons_self)) _ _

theorem terminate_nul (buf : Nat → Char) (ws : List Span) {i : Nat} (hi : buf i = '\x00' ∨ ∃ w ∈ ws, w.eq = i) :
    terminate buf ws i = '\x00' := by
  induction ws generalizing buf with
  | nil => simpa [terminate] using hi
  | cons v ws ih =>
    refine ih (update buf v.eq '\x00') ?_
    rw [update_apply]
    rcases hi with hi | ⟨w, hw, rfl⟩
    · left
      rw [hi, ite_self]
    · rcases List.mem_cons.mp hw with rfl | hw
      · left
        rw [if_pos rfl]
      · exact .inr ⟨w, hw, rfl⟩

def cstring (buf : Nat → Char) : Nat → Nat → List Char
  | 0, _ => []
  | n + 1, s => if buf s = '\x00' then [] else buf s :: cstring buf n (s + 1)

def str (x : Input) (buf : Nat → Char) (w : Span) : List Char := cstring buf (x.es - w.q) w.q

theorem deref_ne_nul (hs : s < x.es) : x.deref s ≠ '\x00' := by
  have hget : x.deref s = x.buf.get ⟨s, hs⟩ := by
    rw [Input.deref, List.getD_eq_getElem _ _ hs]
    rfl
  rw [hget]
  exact x.noNul _ (List.get_mem ..)

theorem text_cons {q e : Nat} (hq : q < e) (he : e ≤ x.es) : text x ⟨q, e⟩ = x.deref q :: text x ⟨q + 1, e⟩ := by
  have hlt : q < x.buf.length := Nat.lt_of_lt_of_le hq he
  have hd : x.buf.drop q = x.deref q :: x.buf.drop (q + 1) := by
    rw [Input.deref, List.getD_eq_getElem _ _ hlt]
    exact List.drop_eq_getElem_cons hlt
  simp only [text]
  rw [hd, show e - q = (e - (q + 1)) + 1 by omega, List.take_succ_cons]

theorem cstring_text (buf : Nat → Char) {q e : Nat} (hq : q ≤ e) (he : e ≤ x.es)
    (hsame : ∀ i, q ≤ i → i < e → buf i = x.deref i)
    (hend : buf e = '\x00') : cstring buf (x.es - q) q = text x ⟨q, e⟩ := by
  obtain ⟨k, rfl⟩ := Nat.exists_eq_add_of_le hq
  induction k generalizing q with
  | zero =>
    have hnil : text x ⟨q, q⟩ = [] := by simp [text]
    rw [Nat.add_zero] at hend ⊢
    rw [hnil]
    cases x.es - q with
    | zero => rfl
    | succ n => rw [cstring, if_pos hend]
  | succ k ih =>
    have hfirst := hsame q (Nat.le_refl _) (by omega)
    have hne : x.deref q ≠ '\x00' := deref_ne_nul (by omega)
    rw [text_cons (by omega) he, show x.es - q = (x.es - (q + 1)) + 1 by omega, cstring, hfirst, if_neg hne]
    have hassoc : q + (k + 1) = q + 1 + k := by omega
    rw [hassoc] at he hend hsame ⊢
    rw [ih (by omega) he (fun i hi hlt => hsame i (by omega) hlt) hend]

structure Word (x : Input) (w : Span) : Prop where
  start : w.q ≤ w.eq
  le : w.eq ≤ x.es
  chars : ∀ i, w.q ≤ i → i < w.eq → wordChar (x.deref i) = true
  stop : w.eq = x.es ∨ wordChar (x.deref w.eq) = false

def Words (x : Input) (t : Tree Span) : Prop := ∀ w ∈ t.words, Word x w

theorem Word.apart {v : Span} (hv : Word x v) (hw : Word x w) {i : Nat} (hi : w.q ≤ i) (hlt : i < w.eq) : v.eq ≠ i := by
  rintro rfl
  rcases hv.stop with hes | hstop
  · have := hw.le
    omega
  · rw [hw.chars _ hi hlt] at hstop
    cases hstop

theorem str_terminate {ws : List Span} (hws : ∀ v ∈ ws, Word x v) (hw : w ∈ ws) :
    str x (terminate x.deref ws) w = text x w := by
  have h := hws w hw
  refine cstring_text _ h.start h.le (fun i hi hlt => ?_) ?_
  · exact terminate_of_ne _ ws fun v hv => (hws v hv).apart h hi hlt
  · exact terminate_nul _ ws (.inr ⟨w, hw, rfl⟩)

section

variable (p : Char → Bool) (x : Input)

theorem scan_le (n s : Nat) : s ≤ scan p x n s ∧ scan p x n s ≤ s + n := by
  induction n generalizing s with
  | zero => exact ⟨Nat.le_refl _, Nat.le_refl _⟩
  | succ n ih =>
    rw [scan]
    split_ifs
    · have := ih (s + 1)
      omega
    · omega

theorem scan_chars (n s : Nat) {i : Nat} (hi : s ≤ i) (hlt : i < scan p x n s) : p (x.deref i) = true := by
  induction n generalizing s with
  | zero =>
    rw [scan] at hlt
    omega
  | succ n ih =>
    rw [scan] at hlt
    split_ifs at hlt with hp
    · rcases Nat.eq_or_lt_of_le hi with rfl | hi
      · exact hp
      · exact ih (s + 1) hi hlt
    · omega

theorem scan_stop (n s : Nat) : scan p x n s = s + n ∨ p (x.deref (scan p x n s)) = false := by
  induction n generalizing s with
  | zero => exact .inl rfl
  | succ n ih =>
    rw [scan]
    split_ifs with hp
    · rcases ih (s + 1) with h | h
      · left
        omega
      · exact .inr h
    · exact .inr (by simpa using hp)

end

theorem skip_le (hs : s ≤ x.es) : skip x s ≤ x.es := by
  have := (scan_le (fun c => whitespace.contains c) x (x.es - s) s).2
  unfold skip
  omega

theorem lt_of_deref (hs : x.deref s ≠ '\x00') : s < x.es := by
  by_contra hge
  apply hs
  rw [Input.deref, List.getD_eq_default _ _ (Nat.not_lt.mp hge)]

theorem scan_word (hs : s ≤ x.es) : Word x ⟨s, scan wordChar x (x.es - s) s⟩ := by
  have hle := scan_le wordChar x (x.es - s) s
  refine ⟨hle.1, ?_, fun i hi hlt => scan_chars wordChar x _ s hi hlt, ?_⟩
  · dsimp only
    omega
  · rcases scan_stop wordChar x (x.es - s) s with h | h
    · left
      dsimp only
      omega
    · exact .inr h

theorem token_words (hs : s ≤ x.es) : (token x s).2 ≤ x.es ∧ ((token x s).1 = .word → Word x ⟨s, (token x s).2⟩) := by
  have hop : ∀ c, x.deref s = c → c ≠ '\x00' → s + 1 ≤ x.es := fun c hc hne => lt_of_deref (hc ▸ hne)
  unfold token
  split
  case h_1 => exact ⟨hs, fun h => by cases h⟩
  case h_8 heq =>
    split_ifs with hgt
    · exact ⟨lt_of_deref (by rw [hgt]; decide), fun h => by cases h⟩
    · exact ⟨hop _ heq (by decide), fun h => by cases h⟩
  case h_9 => exact ⟨(scan_word hs).le, fun _ => scan_word hs⟩
  all_goals
    rename_i heq
    exact ⟨hop _ heq (by decide), fun h => by cases h⟩

theorem gettoken_words (hs : s ≤ x.es) :
    wp (gettoken x) (fun r s' => s' ≤ x.es ∧ (r.1 = .word → Word x r.2)) (fun _ _ => False) s := by
  unfold gettoken
  simp only [wp_bind, wp_get, wp_modify, wp_pure]
  obtain ⟨hle, hword⟩ := token_words (skip_le hs)
  exact ⟨skip_le hle, hword⟩

theorem peek_words (toks : List Char) (hs : s ≤ x.es) :
    wp (peek x toks) (fun _ s' => s' ≤ x.es) (fun _ _ => False) s := by
  unfold peek
  simp only [wp_bind, wp_get, wp_modify, wp_pure]
  exact skip_le hs

theorem words_redir (tok : Ret) (hcmd : Words x cmd) (hw : Word x w) : Words x (redir tok cmd w) := by
  have hadd : ∀ mode fd, Words x (.redir cmd w mode fd) := by
    intro mode fd v hv
    rcases List.mem_append.mp hv with hv | hv
    · exact hcmd v hv
    · rw [List.mem_singleton.mp hv]
      exact hw
  unfold redir
  split
  · exact hadd _ _
  · exact hadd _ _
  · exact hadd _ _
  · exact hcmd

theorem words_addArg (hcmd : Words x cmd) (hw : Word x w) : Words x (cmd.addArg w) := by
  induction cmd with
  | exec argv =>
    intro v hv
    rcases List.mem_append.mp hv with hv | hv
    · exact hcmd v hv
    · rw [List.mem_singleton.mp hv]
      exact hw
  | redir cmd file mode fd ih =>
    intro v hv
    rcases List.mem_append.mp hv with hv | hv
    · exact ih (fun u hu => hcmd u (List.mem_append_left _ hu)) v hv
    · exact hcmd v (List.mem_append_right _ hv)
  | pipe | list | back => exact hcmd

def Parses (x : Input) (c : P (Tree Span)) : Prop :=
  ∀ s, s ≤ x.es → wp c (fun t s' => s' ≤ x.es ∧ Words x t) (fun _ _ => True) s

theorem parseredirs_words (n : Nat) (hcmd : Words x cmd) : Parses x (parseredirs x n cmd) := by
  induction n generalizing cmd with
  | zero => exact fun _ _ => trivial
  | succ n ih =>
    intro s hs
    rw [parseredirs]
    refine wp_then (peek_words _ hs) fun b s₁ hs₁ => ?_
    split_ifs
    · refine wp_then (gettoken_words hs₁) ?_
      rintro tok s₂ ⟨hs₂, _⟩
      refine wp_then (gettoken_words hs₂) ?_
      rintro file s₃ ⟨hs₃, hfile⟩
      split_ifs with hword
      · exact ih (words_redir tok.1 hcmd (hfile hword)) s₃ hs₃
      · trivial
    · exact ⟨hs₁, hcmd⟩

theorem parseargs_words (n argc : Nat) (hcmd : Words x cmd) : Parses x (parseargs x n argc cmd) := by
  induction n generalizing cmd argc with
  | zero => exact fun _ _ => trivial
  | succ n ih =>
    intro s hs
    rw [parseargs]
    refine wp_then (peek_words _ hs) fun b s₁ hs₁ => ?_
    split
    · exact ⟨hs₁, hcmd⟩
    refine wp_then (gettoken_words hs₁) ?_
    rintro tok s₂ ⟨hs₂, htok⟩
    split_ifs with heof hword
    · exact ⟨hs₂, hcmd⟩
    · trivial
    · trivial
    · refine wp_seq (parseredirs_words n (words_addArg hcmd (htok (not_not.mp hword))) s₂ hs₂) ?_
      rintro ret s₃ ⟨hs₃, hret⟩
      exact ih (argc + 1) hret s₃ hs₃

theorem parsebacks_words (n : Nat) (hcmd : Words x cmd) : Parses x (parsebacks x n cmd) := by
  induction n generalizing cmd with
  | zero => exact fun _ _ => trivial
  | succ n ih =>
    intro s hs
    rw [parsebacks]
    refine wp_then (peek_words _ hs) fun b s₁ hs₁ => ?_
    split_ifs
    · refine wp_then (gettoken_words hs₁) ?_
      rintro _ s₂ ⟨hs₂, _⟩
      exact ih (show Words x (.back cmd) from hcmd) s₂ hs₂
    · exact ⟨hs₁, hcmd⟩

theorem words_append {left right u : Tree Span} (hu : u.words = left.words ++ right.words) (hl : Words x left)
    (hr : Words x right) :
    Words x u := by
  intro v hv
  rw [hu] at hv
  rcases List.mem_append.mp hv with hv | hv
  · exact hl v hv
  · exact hr v hv

theorem parse_words (n : Nat) :
    Parses x (parseline x n) ∧ Parses x (parsepipe x n) ∧ Parses x (parseblock x n) ∧ Parses x (parseexec x n) := by
  induction n with
  | zero =>
    refine ⟨fun s _ => ?_, fun s _ => ?_, fun s _ => ?_, fun s _ => ?_⟩
    · rw [parseline]
      trivial
    · rw [parsepipe]
      trivial
    · rw [parseblock]
      trivial
    · rw [parseexec]
      trivial
  | succ n ih =>
    obtain ⟨hline, hpipe, hblock, hexec⟩ := ih
    refine ⟨fun s hs => ?_, fun s hs => ?_, fun s hs => ?_, fun s hs => ?_⟩
    · rw [parseline]
      refine wp_seq (hpipe s hs) ?_
      rintro cmd s₁ ⟨hs₁, hcmd⟩
      refine wp_seq (parsebacks_words n hcmd s₁ hs₁) ?_
      rintro cmd s₂ ⟨hs₂, hcmd⟩
      refine wp_then (peek_words _ hs₂) fun b s₃ hs₃ => ?_
      split_ifs
      · refine wp_then (gettoken_words hs₃) ?_
        rintro _ s₄ ⟨hs₄, _⟩
        refine wp_seq (hline s₄ hs₄) ?_
        rintro right s₅ ⟨hs₅, hright⟩
        exact ⟨hs₅, words_append rfl hcmd hright⟩
      · exact ⟨hs₃, hcmd⟩
    · rw [parsepipe]
      refine wp_seq (hexec s hs) ?_
      rintro cmd s₁ ⟨hs₁, hcmd⟩
      refine wp_then (peek_words _ hs₁) fun b s₂ hs₂ => ?_
      split_ifs
      · refine wp_then (gettoken_words hs₂) ?_
        rintro _ s₃ ⟨hs₃, _⟩
        refine wp_seq (hpipe s₃ hs₃) ?_
        rintro right s₄ ⟨hs₄, hright⟩
        exact ⟨hs₄, words_append rfl hcmd hright⟩
      · exact ⟨hs₂, hcmd⟩
    · rw [parseblock]
      refine wp_then (peek_words _ hs) fun b s₁ hs₁ => ?_
      split_ifs
      · refine wp_then (gettoken_words hs₁) ?_
        rintro _ s₂ ⟨hs₂, _⟩
        refine wp_seq (hline s₂ hs₂) ?_
        rintro cmd s₃ ⟨hs₃, hcmd⟩
        refine wp_then (peek_words _ hs₃) fun b s₄ hs₄ => ?_
        split_ifs
        · refine wp_then (gettoken_words hs₄) ?_
          rintro _ s₅ ⟨hs₅, _⟩
          exact parseredirs_words n hcmd s₅ hs₅
        · trivial
      · trivial
    · rw [parseexec]
      refine wp_then (peek_words _ hs) fun b s₁ hs₁ => ?_
      split_ifs
      · exact hblock s₁ hs₁
      · have hnone : Words x (.exec []) := fun v hv => by cases hv
        refine wp_seq (parseredirs_words n hnone s₁ hs₁) ?_
        rintro ret s₂ ⟨hs₂, hret⟩
        exact parseargs_words n 0 hret s₂ hs₂

theorem parsewhole_words (n : Nat) : wp (parsewhole x n) (fun t _ => Words x t) (fun _ _ => True) 0 := by
  unfold parsewhole
  refine wp_seq (parse_words n |>.1 0 (Nat.zero_le _)) fun t s₁ ⟨hs₁, ht⟩ => ?_
  refine wp_then (peek_words _ hs₁) fun _ s₂ _ => ?_
  rw [wp_bind, wp_get]
  split_ifs
  · trivial
  · exact ht

theorem map_words {α : Type} {f g : Span → α} (t : Tree Span) (h : ∀ w ∈ t.words, f w = g w) : t.map f = t.map g := by
  induction t with
  | exec argv => exact congrArg Tree.exec (List.map_congr_left h)
  | redir cmd file mode fd ih =>
    rw [Tree.map, Tree.map, ih fun w hw => h w (List.mem_append_left _ hw),
      h file (List.mem_append_right _ List.mem_cons_self)]
  | pipe left right ihl ihr =>
    rw [Tree.map, Tree.map, ihl fun w hw => h w (List.mem_append_left _ hw),
      ihr fun w hw => h w (List.mem_append_right _ hw)]
  | list left right ihl ihr =>
    rw [Tree.map, Tree.map, ihl fun w hw => h w (List.mem_append_left _ hw),
      ihr fun w hw => h w (List.mem_append_right _ hw)]
  | back cmd ih => rw [Tree.map, Tree.map, ih h]

theorem parsecmd_ok {buf : Nat → Char} (hp : parsecmd n x = .ok (t, buf)) :
    buf = terminate x.deref t.words ∧ Words x t ∧ (4 * x.buf.length + 4 ≤ n → Derives .line (lex [] x.buf)
      (t.map (text x))) := by
  have hwords := parsewhole_words (x := x) n
  have hsound := fun hn => parsewhole_sound (x := x) (n := n) hn
  unfold parsecmd at hp
  unfold wp at hwords hsound
  rcases hrun : parsewhole x n 0 with ⟨e | u, s'⟩ <;> simp only [hrun] at hp hwords hsound
  · cases hp
  · cases hp
    exact ⟨nulterminate_eq x.deref t, hwords, hsound⟩

/-- **`nulterminate` isolates every word.** In the buffer that `parsecmd` leaves each word of the tree is a string with
the text that the word has in the line, so that the tree of these strings is the tree of the line's tokens. The NULs may
be written in any order. -/
theorem nulterminate_isolates (x : Input) (n : Nat) (hn : 4 * x.buf.length + 4 ≤ n) (t : Tree Span) (buf : Nat → Char)
    (hp : parsecmd n x = .ok (t, buf)) :
    (∀ w ∈ t.words, str x buf w = text x w) ∧ Derives .line (lex [] x.buf) (t.map (str x buf)) ∧
    ∀ ws, ws.Perm t.words → ∀ w ∈ ws, str x (terminate x.deref ws) w = text x w := by
  obtain ⟨rfl, hwords, hderives⟩ := parsecmd_ok hp
  have hstr : ∀ w ∈ t.words, str x (terminate x.deref t.words) w = text x w := fun w hw => str_terminate hwords hw
  refine ⟨hstr, ?_, fun ws hws w hw => ?_⟩
  · rw [map_words t hstr]
    exact hderives hn
  · exact str_terminate (fun v hv => hwords v (hws.mem_iff.mp hv)) hw

theorem nulterminate_isolates_line :
    ∃ t buf, parsecmd 48 line = .ok (t, buf) ∧ t.words.map (str line buf) = [['a'], ['c'], ['b'], ['d']] := by
  refine ⟨_, _, rfl, ?_⟩
  rw [List.map_congr_left (nulterminate_isolates line 48 (by decide) _ _ rfl).1]
  rfl

end Xv6.Shell
