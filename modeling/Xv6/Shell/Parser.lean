import Mathlib
import Xv6.Shell.Tokens

/-!
# The parser accepts the grammar

Fuel is counted in tokens. Each function is shown to read a phrase and to return its tree, or to panic
(`_sound`), and to read every phrase with something behind it that may follow (`_complete`).
-/

open Lib Cmd

namespace Xv6.Shell

variable {x : Input} {s n : Nat} {ts rest : List (Tok (List Char))} {cmd : Tree Span}

def Panics : Fail → Nat → Prop := fun e _ => e ≠ .fuel

theorem starts_dir : starts ['<', '>'] ts = true ↔ ∃ d l, ts = .dir d :: l := by
  rcases ts with _ | ⟨_ | _ | _ | _ | _ | (_ | _ | _) | w, l⟩ <;> simp [starts, Tok.isIn]

theorem ret_word {t : Tok (List Char)} : t.ret = .word ↔ ∃ w, t = .word w := by
  rcases t with _ | _ | _ | _ | _ | (_ | _ | _) | w <;> simp [Tok.ret]

theorem ret_ne_eof (t : Tok (List Char)) : t.ret ≠ .eof := by
  rcases t with _ | _ | _ | _ | _ | (_ | _ | _) | w <;> simp [Tok.ret]

theorem map_redir (d : Dir) (cmd : Tree Span) (w : Span) :
    (redir (Tok.dir d : Tok (List Char)).ret cmd w).map (text x) = .redir (cmd.map (text x))
      (text x w) d.mode d.fd := by
  cases d <;> rfl

theorem parseredirs_sound (h : At x ts s) (hn : ts.length < n) : wp (parseredirs x n cmd) (fun t s' => ∃ rs rest,
    ts = Redirs.toks rs ++ rest ∧ t.map (text x) = Redirs.wrap rs (cmd.map (text x)) ∧ At x rest s') Panics s := by
  induction n generalizing ts s cmd with
  | zero => omega
  | succ n ih =>
    rw [parseredirs]
    refine wp_then (peek_spec _ (by decide) h) ?_
    rintro _ s₁ ⟨rfl, h₁⟩
    split_ifs with hstart
    · obtain ⟨d, l, rfl⟩ := starts_dir.mp hstart
      refine wp_then (gettoken_cons h₁) fun tok s₂ ⟨htok, _, h₂⟩ => ?_
      rcases l with _ | ⟨t, l⟩
      · refine wp_then (gettoken_nil h₂) fun file s₃ ⟨hfile, _⟩ => ?_
        rw [if_neg (by rw [hfile]; simp)]
        exact Fail.noConfusion
      · refine wp_then (gettoken_cons h₂) fun file s₃ ⟨hfile, htext, h₃⟩ => ?_
        split_ifs with hword
        · obtain ⟨w, rfl⟩ := ret_word.mp (hfile.symm.trans hword)
          refine wp_mono _ _ _ _ _ _ (ih h₃ ?_) ?_ fun _ _ he => he
          · simp only [List.length_cons] at hn
            omega
          · rintro t s' ⟨rs, rest, rfl, ht, hrest⟩
            refine ⟨(d, w) :: rs, rest, rfl, ?_, hrest⟩
            rw [ht, htok, map_redir, htext w rfl]
            rfl
        · exact Fail.noConfusion
    · exact ⟨[], ts, rfl, rfl, h₁⟩

theorem parseredirs_complete (rs : Redirs (List Char)) (hrest : starts ['<', '>'] rest = false)
    (h : At x (rs.toks ++ rest) s) (hn : (rs.toks ++ rest).length < n) : wp (parseredirs x n cmd) (fun t s' =>
      t.map (text x) = rs.wrap (cmd.map (text x)) ∧ At x rest s') (fun _ _ => False) s := by
  induction rs generalizing n s cmd with
  | nil =>
    obtain ⟨n, rfl⟩ : ∃ m, n = m + 1 := ⟨n - 1, by omega⟩
    rw [parseredirs]
    refine wp_then (peek_spec _ (by decide) h) ?_
    rintro _ s₁ ⟨rfl, h₁⟩
    rw [if_neg (by rw [show (Redirs.toks [] ++ rest : List (Tok (List Char))) = rest from rfl, hrest]; simp)]
    exact ⟨rfl, h₁⟩
  | cons r rs ih =>
    obtain ⟨d, w⟩ := r
    obtain ⟨n, rfl⟩ : ∃ m, n = m + 1 := ⟨n - 1, by omega⟩
    have h' : At x (.dir d :: .word w :: (Redirs.toks rs ++ rest)) s := h
    have hn' : (Tok.dir d :: Tok.word w :: (Redirs.toks rs ++ rest)).length < n + 1 := hn
    rw [parseredirs]
    refine wp_then (peek_spec _ (by decide) h') ?_
    rintro _ s₁ ⟨rfl, h₁⟩
    rw [if_pos (starts_dir.mpr ⟨d, _, rfl⟩)]
    refine wp_then (gettoken_cons h₁) fun tok s₂ ⟨htok, _, h₂⟩ => ?_
    refine wp_then (gettoken_cons h₂) fun file s₃ ⟨hfile, htext, h₃⟩ => ?_
    rw [if_pos (show file.1 = .word from hfile)]
    refine wp_mono _ _ _ _ _ _ (ih h₃ ?_) ?_ fun _ _ he => he
    · simp only [List.length_cons] at hn'
      omega
    · rintro t s' ⟨ht, hs'⟩
      refine ⟨?_, hs'⟩
      rw [ht, htok, map_redir, htext w rfl]
      rfl

theorem wrap_args (rs rs' : Redirs (List Char)) (ws : List (List Char)) (w : List Char) (ret : Tree Span) (v : Span)
    (hret : ret.map (text x) = rs.wrap (.exec ws)) (hw : text x v = w) :
    Redirs.wrap rs' ((ret.addArg v).map (text x)) = (rs ++ rs').wrap (.exec (ws ++ [w])) := by
  rw [Tree.map_addArg, hret, Redirs.wrap_addArg, Redirs.wrap_append, hw]
  rfl

theorem parseargs_sound {argc : Nat} {ret : Tree Span} (rs : Redirs (List Char)) (ws : List (List Char))
    (hret : ret.map (text x) = rs.wrap (.exec ws)) (hws : ws.length = argc) (hargc : argc < MAXARGS) (h : At x ts s)
    (hn : ts.length < n) : wp (parseargs x n argc ret) (fun t s' => ∃ as rest, ts = Args.toks as ++ rest ∧
      argc + as.length < MAXARGS ∧ t.map (text x) = Redirs.wrap (rs ++ Args.redirs as) (.exec (ws ++ Args.words as)) ∧
      At x rest s')
      Panics s := by
  induction n generalizing ts s argc ret rs ws with
  | zero => omega
  | succ n ih =>
    rw [parseargs]
    refine wp_then (peek_spec _ (by decide) h) ?_
    rintro _ s₁ ⟨rfl, h₁⟩
    have hnone : ret.map (text x) = Redirs.wrap (rs ++ Args.redirs []) (.exec (ws ++ Args.words [])) := by
      rw [hret]
      simp [Args.redirs, Args.words]
    by_cases hstop : starts ['|', ')', '&', ';'] ts = true
    · rw [if_pos hstop]
      exact ⟨[], ts, rfl, hargc, hnone, h₁⟩
    rw [if_neg hstop]
    rcases ts with _ | ⟨t, ts⟩
    · refine wp_then (gettoken_nil h₁) fun tok s₂ ⟨htok, h₂⟩ => ?_
      rw [if_pos htok]
      exact ⟨[], [], rfl, hargc, hnone, h₂⟩
    · refine wp_then (gettoken_cons h₁) fun tok s₂ ⟨htok, htext, h₂⟩ => ?_
      rw [if_neg (by rw [htok]; exact ret_ne_eof t)]
      split_ifs with hword hmany
      · exact Fail.noConfusion
      · exact Fail.noConfusion
      obtain ⟨w, rfl⟩ := ret_word.mp (htok.symm.trans (not_not.mp hword))
      simp only [List.length_cons] at hn
      refine wp_seq (parseredirs_sound h₂ (by omega)) ?_
      rintro ret' s₃ ⟨rs', rest, rfl, hret', h₃⟩
      rw [wrap_args rs rs' ws w ret tok.2 hret (htext w rfl)] at hret'
      rw [List.length_append] at hn
      refine wp_mono _ _ _ _ _ _ (ih (rs ++ rs') (ws ++ [w]) hret' (by simp [hws]) (by omega) h₃ (by omega)) ?_
        fun _ _ he => he
      rintro t s' ⟨as, rest', rfl, hlen, ht, hs'⟩
      refine ⟨(w, rs') :: as, rest', by simp [Args.toks], by simp only [List.length_cons]; omega, ?_, hs'⟩
      rw [ht]
      simp [Args.redirs, Args.words]

theorem parseargs_complete {argc : Nat} {ret : Tree Span} (rs : Redirs (List Char)) (ws : List (List Char))
    (as : Args (List Char)) (hret : ret.map (text x) = rs.wrap (.exec ws)) (hlen : argc + as.length < MAXARGS)
    (hrest : Sym.exec.follow rest.head? = true) (h : At x (as.toks ++ rest) s) (hn : (as.toks ++ rest).length < n) :
    wp (parseargs x n argc ret) (fun t s' => t.map (text x) = Redirs.wrap (rs ++ as.redirs) (.exec (ws ++ as.words)) ∧
      At x rest s') (fun _ _ => False) s := by
  induction as generalizing n s argc ret rs ws with
  | nil =>
    obtain ⟨n, rfl⟩ : ∃ m, n = m + 1 := ⟨n - 1, by omega⟩
    have h' : At x rest s := h
    rw [parseargs]
    refine wp_then (peek_spec _ (by decide) h') ?_
    rintro _ s₁ ⟨rfl, h₁⟩
    have hnone : ret.map (text x) = Redirs.wrap (rs ++ Args.redirs []) (.exec (ws ++ Args.words [])) := by
      rw [hret]
      simp [Args.redirs, Args.words]
    by_cases hstop : starts ['|', ')', '&', ';'] rest = true
    · rw [if_pos hstop]
      exact ⟨hnone, h₁⟩
    rw [if_neg hstop]
    have hnil : rest = [] := by
      rcases rest with _ | ⟨_ | _ | _ | _ | _ | (_ | _ | _) | w, l⟩ <;> simp_all [starts, Tok.isIn, Sym.follow]
    subst hnil
    refine wp_then (gettoken_nil h₁) ?_
    rintro tok s₂ ⟨htok, h₂⟩
    rw [if_pos htok]
    exact ⟨hnone, h₂⟩
  | cons a as ih =>
    obtain ⟨w, rs'⟩ := a
    obtain ⟨n, rfl⟩ : ∃ m, n = m + 1 := ⟨n - 1, by omega⟩
    have htoks : Args.toks ((w, rs') :: as) ++ rest = .word w :: (Redirs.toks rs' ++ (Args.toks as ++ rest)) := by
      simp [Args.toks]
    rw [htoks] at h hn
    simp only [List.length_cons] at hn hlen
    rw [parseargs]
    refine wp_then (peek_spec _ (by decide) h) ?_
    rintro _ s₁ ⟨rfl, h₁⟩
    rw [if_neg (by simp [starts, Tok.isIn])]
    refine wp_then (gettoken_cons h₁) ?_
    rintro tok s₂ ⟨htok, htext, h₂⟩
    rw [if_neg (by rw [htok]; simp [Tok.ret]), if_neg (by rw [htok]; simp [Tok.ret]), if_neg (by omega)]
    have hstart : starts ['<', '>'] (Args.toks as ++ rest) = false := by
      rcases as with _ | ⟨⟨w', rs''⟩, as⟩
      · rcases rest with _ | ⟨_ | _ | _ | _ | _ | (_ | _ | _) | w, l⟩ <;>
          simp_all [starts, Tok.isIn, Sym.follow, Args.toks]
      · simp [starts, Tok.isIn, Args.toks]
    refine wp_seq (parseredirs_complete rs' hstart h₂ (by omega)) ?_
    rintro ret' s₃ ⟨hret', h₃⟩
    rw [wrap_args rs rs' ws w ret tok.2 hret (htext w rfl)] at hret'
    rw [List.length_append] at hn
    refine wp_mono _ _ _ _ _ _ (ih (rs ++ rs') (ws ++ [w]) hret' (by omega) h₃ (by omega)) ?_ fun _ _ he => he
    rintro t s' ⟨ht, hs'⟩
    refine ⟨?_, hs'⟩
    rw [ht]
    simp [Args.redirs, Args.words]

theorem starts_amp : starts ['&'] ts = true ↔ ∃ l, ts = .amp :: l := by
  rcases ts with _ | ⟨_ | _ | _ | _ | _ | (_ | _ | _) | w, l⟩ <;> simp [starts, Tok.isIn]

theorem map_backs (f : Span → List Char) (t : Tree Span) (k : Nat) : (t.backs k).map f = (t.map f).backs k := by
  induction k generalizing t with
  | zero => rfl
  | succ k ih => exact ih t.back

theorem parsebacks_sound (h : At x ts s) (hn : ts.length < n) : wp (parsebacks x n cmd) (fun t s' => ∃ k rest,
    ts = List.replicate k .amp ++ rest ∧ t = cmd.backs k ∧ At x rest s') Panics s := by
  induction n generalizing ts s cmd with
  | zero => omega
  | succ n ih =>
    rw [parsebacks]
    refine wp_then (peek_spec _ (by decide) h) ?_
    rintro _ s₁ ⟨rfl, h₁⟩
    split_ifs with hstart
    · obtain ⟨l, rfl⟩ := starts_amp.mp hstart
      refine wp_then (gettoken_cons h₁) fun _ s₂ ⟨_, _, h₂⟩ => ?_
      simp only [List.length_cons] at hn
      refine wp_mono _ _ _ _ _ _ (ih h₂ (by omega)) ?_ fun _ _ he => he
      rintro t s' ⟨k, rest, rfl, rfl, hs'⟩
      exact ⟨k + 1, rest, rfl, rfl, hs'⟩
    · exact ⟨0, ts, rfl, rfl, h₁⟩

theorem parsebacks_complete (k : Nat) (hrest : starts ['&'] rest = false) (h : At x (List.replicate k .amp ++ rest) s)
    (hn : (List.replicate k Tok.amp ++ rest).length < n) :
    wp (parsebacks x n cmd) (fun t s' => t = cmd.backs k ∧ At x rest s') (fun _ _ => False) s := by
  induction k generalizing n s cmd with
  | zero =>
    obtain ⟨n, rfl⟩ : ∃ m, n = m + 1 := ⟨n - 1, by omega⟩
    have h' : At x rest s := h
    rw [parsebacks]
    refine wp_then (peek_spec _ (by decide) h') ?_
    rintro _ s₁ ⟨rfl, h₁⟩
    rw [if_neg (by rw [hrest]; simp)]
    exact ⟨rfl, h₁⟩
  | succ k ih =>
    obtain ⟨n, rfl⟩ : ∃ m, n = m + 1 := ⟨n - 1, by omega⟩
    rw [List.replicate_succ, List.cons_append] at h hn
    rw [parsebacks]
    refine wp_then (peek_spec _ (by decide) h) ?_
    rintro _ s₁ ⟨rfl, h₁⟩
    rw [if_pos (starts_amp.mpr ⟨_, rfl⟩)]
    refine wp_then (gettoken_cons h₁) fun _ s₂ ⟨_, _, h₂⟩ => ?_
    simp only [List.length_cons] at hn
    exact ih h₂ (by omega)

def Sym.parse (x : Input) (n : Nat) : Sym → P (Tree Span)
  | line => parseline x n
  | pipe => parsepipe x n
  | exec => parseexec x n

def Sym.fuel (k : Nat) : Sym → Nat
  | line => 4 * k + 4
  | pipe => 4 * k + 3
  | exec => 4 * k + 2

def Reads (x : Input) (y : Sym) (ts : List (Tok (List Char))) (t : Tree Span) (s' : Nat) : Prop :=
  ∃ pre rest, ts = pre ++ rest ∧ Derives y pre (t.map (text x)) ∧ At x rest s'

theorem starts_lpar : starts ['('] ts = true ↔ ∃ l, ts = .lpar :: l := by
  rcases ts with _ | ⟨_ | _ | _ | _ | _ | (_ | _ | _) | w, l⟩ <;> simp [starts, Tok.isIn]

theorem starts_rpar : starts [')'] ts = true ↔ ∃ l, ts = .rpar :: l := by
  rcases ts with _ | ⟨_ | _ | _ | _ | _ | (_ | _ | _) | w, l⟩ <;> simp [starts, Tok.isIn]

theorem starts_semi : starts [';'] ts = true ↔ ∃ l, ts = .semi :: l := by
  rcases ts with _ | ⟨_ | _ | _ | _ | _ | (_ | _ | _) | w, l⟩ <;> simp [starts, Tok.isIn]

theorem starts_bar : starts ['|'] ts = true ↔ ∃ l, ts = .bar :: l := by
  rcases ts with _ | ⟨_ | _ | _ | _ | _ | (_ | _ | _) | w, l⟩ <;> simp [starts, Tok.isIn]

section

variable (ih : ∀ y ts s, At x ts s → Sym.fuel ts.length y ≤ n → wp (y.parse x n) (Reads x y ts) Panics s)
include ih

theorem parseline_step (h : At x ts s) (hn : Sym.fuel ts.length .line ≤ n + 1) :
    wp (parseline x (n + 1)) (Reads x .line ts) Panics s := by
  simp only [Sym.fuel] at hn
  rw [parseline]
  refine wp_seq (ih .pipe ts s h (by simp only [Sym.fuel]; omega)) ?_
  rintro t s₁ ⟨p, rest, rfl, ht, h₁⟩
  rw [List.length_append] at hn
  refine wp_seq (parsebacks_sound h₁ (by omega)) ?_
  rintro _ s₂ ⟨k, rest, rfl, rfl, h₂⟩
  rw [List.length_append] at hn
  refine wp_then (peek_spec _ (by decide) h₂) ?_
  rintro _ s₃ ⟨rfl, h₃⟩
  split_ifs with hsemi
  · obtain ⟨l, rfl⟩ := starts_semi.mp hsemi
    refine wp_then (gettoken_cons h₃) fun _ s₄ ⟨_, _, h₄⟩ => ?_
    rw [List.length_cons] at hn
    refine wp_seq (ih .line l s₄ h₄ (by simp only [Sym.fuel]; omega)) ?_
    rintro u s₅ ⟨l, rest, rfl, hu, h₅⟩
    refine ⟨p ++ List.replicate k .amp ++ .semi :: l, rest, by simp, ?_, h₅⟩
    rw [Tree.map, map_backs]
    exact .list p l _ _ k ht hu
  · refine ⟨p ++ List.replicate k .amp, rest, by simp, ?_, h₃⟩
    rw [map_backs]
    exact .line p _ k ht

theorem parsepipe_step (h : At x ts s) (hn : Sym.fuel ts.length .pipe ≤ n + 1) :
    wp (parsepipe x (n + 1)) (Reads x .pipe ts) Panics s := by
  simp only [Sym.fuel] at hn
  rw [parsepipe]
  refine wp_seq (ih .exec ts s h (by simp only [Sym.fuel]; omega)) ?_
  rintro t s₁ ⟨e, rest, rfl, ht, h₁⟩
  rw [List.length_append] at hn
  refine wp_then (peek_spec _ (by decide) h₁) ?_
  rintro _ s₂ ⟨rfl, h₂⟩
  split_ifs with hbar
  · obtain ⟨l, rfl⟩ := starts_bar.mp hbar
    refine wp_then (gettoken_cons h₂) fun _ s₃ ⟨_, _, h₃⟩ => ?_
    rw [List.length_cons] at hn
    refine wp_seq (ih .pipe l s₃ h₃ (by simp only [Sym.fuel]; omega)) ?_
    rintro u s₄ ⟨p, rest, rfl, hu, h₄⟩
    exact ⟨e ++ .bar :: p, rest, by simp, .bar e p _ _ ht hu, h₄⟩
  · exact ⟨e, rest, rfl, .exec e _ ht, h₂⟩

theorem parseblock_step {l : List (Tok (List Char))} (h : At x (.lpar :: l) s) (hn : 4 * l.length + 4 ≤ n) :
    wp (parseblock x (n + 1)) (Reads x .exec (.lpar :: l)) Panics s := by
  rw [parseblock]
  refine wp_then (peek_spec _ (by decide) h) ?_
  rintro _ s₁ ⟨rfl, h₁⟩
  rw [if_pos (starts_lpar.mpr ⟨l, rfl⟩)]
  refine wp_then (gettoken_cons h₁) fun _ s₂ ⟨_, _, h₂⟩ => ?_
  refine wp_seq (ih .line l s₂ h₂ hn) ?_
  rintro t s₃ ⟨l, rest, rfl, ht, h₃⟩
  rw [List.length_append] at hn
  refine wp_then (peek_spec _ (by decide) h₃) ?_
  rintro _ s₄ ⟨rfl, h₄⟩
  split_ifs with hrpar
  · obtain ⟨r, rfl⟩ := starts_rpar.mp hrpar
    rw [List.length_cons] at hn
    refine wp_then (gettoken_cons h₄) fun _ s₅ ⟨_, _, h₅⟩ => ?_
    refine wp_mono _ _ _ _ _ _ (parseredirs_sound h₅ (by omega)) ?_ fun _ _ he => he
    rintro u s' ⟨rs, rest, rfl, hu, hs'⟩
    refine ⟨.lpar :: l ++ .rpar :: rs.toks, rest, by simp, ?_, hs'⟩
    rw [hu]
    exact .block l _ rs ht
  · exact Fail.noConfusion

end

theorem parse_sound (n : Nat) (y : Sym) (ts : List (Tok (List Char))) (s : Nat) (h : At x ts s)
    (hn : y.fuel ts.length ≤ n) :
    wp (y.parse x n) (Reads x y ts) Panics s := by
  -- `parseexec` calls `parseline` two levels down, through `parseblock`.
  induction n using Nat.strongRecOn generalizing y ts s with
  | ind n ih =>
    obtain ⟨n, rfl⟩ : ∃ m, n = m + 1 := ⟨n - 1, by cases y <;> simp only [Sym.fuel] at hn <;> omega⟩
    cases y with
    | line => exact parseline_step (fun y ts s h hn => ih n (by omega) y ts s h hn) h hn
    | pipe => exact parsepipe_step (fun y ts s h hn => ih n (by omega) y ts s h hn) h hn
    | exec =>
      simp only [Sym.fuel] at hn
      change wp (parseexec x (n + 1)) _ _ _
      rw [parseexec]
      refine wp_then (peek_spec _ (by decide) h) ?_
      rintro _ s₁ ⟨rfl, h₁⟩
      split_ifs with hlpar
      · obtain ⟨l, rfl⟩ := starts_lpar.mp hlpar
        rw [List.length_cons] at hn
        obtain ⟨n, rfl⟩ : ∃ m, n = m + 1 := ⟨n - 1, by omega⟩
        exact parseblock_step (fun y ts s h hn => ih n (by omega) y ts s h hn) h₁ (by omega)
      · refine wp_seq (parseredirs_sound h₁ (by omega)) ?_
        rintro ret s₂ ⟨rs, rest, rfl, hret, h₂⟩
        rw [List.length_append] at hn
        refine wp_mono _ _ _ _ _ _ (parseargs_sound rs [] hret rfl (by decide) h₂ (by omega)) ?_ fun _ _ he => he
        rintro t s' ⟨as, rest, rfl, hlen, ht, hs'⟩
        refine ⟨rs.toks ++ as.toks, rest, by simp, ?_, hs'⟩
        rw [ht]
        exact .simple rs as (by simpa [Args.words] using hlen)

theorem follow_exec_of_pipe (h : Sym.pipe.follow rest.head? = true) :
    Sym.exec.follow rest.head? = true ∧ starts ['|'] rest = false := by
  rcases rest with _ | ⟨_ | _ | _ | _ | _ | (_ | _ | _) | w, l⟩ <;> simp_all [starts, Tok.isIn, Sym.follow]

theorem follow_pipe_of_line (h : Sym.line.follow rest.head? = true) :
    Sym.pipe.follow rest.head? = true ∧ starts ['&'] rest = false ∧ starts [';'] rest = false := by
  rcases rest with _ | ⟨_ | _ | _ | _ | _ | (_ | _ | _) | w, l⟩ <;> simp_all [starts, Tok.isIn, Sym.follow]

theorem not_redir_of_follow (h : Sym.exec.follow rest.head? = true) :
    starts ['<', '>'] rest = false ∧ starts ['('] rest = false := by
  rcases rest with _ | ⟨_ | _ | _ | _ | _ | (_ | _ | _) | w, l⟩ <;> simp_all [starts, Tok.isIn, Sym.follow]

theorem follow_amps (k : Nat) (h : Sym.pipe.follow rest.head? = true) :
    Sym.pipe.follow (List.replicate k Tok.amp ++ rest).head? = true := by
  cases k with
  | zero => exact h
  | succ k => rfl

theorem simple_starts (rs : Redirs (List Char)) (as : Args (List Char)) (h : Sym.exec.follow rest.head? = true) :
    starts ['('] (rs.toks ++ as.toks ++ rest) = false ∧ starts ['<', '>'] (as.toks ++ rest) = false := by
  have has : starts ['('] (as.toks ++ rest) = false ∧ starts ['<', '>'] (as.toks ++ rest) = false := by
    rcases as with _ | ⟨⟨w, rs'⟩, as⟩
    · exact ⟨(not_redir_of_follow h).2, (not_redir_of_follow h).1⟩
    · simp [starts, Tok.isIn, Args.toks]
  refine ⟨?_, has.2⟩
  rcases rs with _ | ⟨⟨d, w⟩, rs⟩
  · exact has.1
  · cases d <;> simp [starts, Tok.isIn, Redirs.toks]

theorem parse_complete {y : Sym} {pre : List (Tok (List Char))} {t : Tree (List Char)} (hd : Derives y pre t)
    (hrest : y.follow rest.head? = true) (h : At x (pre ++ rest) s) (hn : y.fuel (pre ++ rest).length ≤ n) :
    wp (y.parse x n) (fun u s' => u.map (text x) = t ∧ At x rest s') (fun _ _ => False) s := by
  induction hd generalizing rest s n with
  | line p t k hp ih =>
    simp only [Sym.fuel] at hn
    obtain ⟨n, rfl⟩ : ∃ m, n = m + 1 := ⟨n - 1, by omega⟩
    obtain ⟨hpipe, hamp, hsemi⟩ := follow_pipe_of_line hrest
    rw [List.append_assoc] at h hn
    change wp (parseline x (n + 1)) _ _ _
    rw [parseline]
    refine wp_seq (ih (follow_amps k hpipe) h (by simp only [Sym.fuel]; omega)) ?_
    rintro u s₁ ⟨hu, h₁⟩
    rw [List.length_append] at hn
    refine wp_seq (parsebacks_complete k hamp h₁ (by omega)) ?_
    rintro _ s₂ ⟨rfl, h₂⟩
    refine wp_then (peek_spec _ (by decide) h₂) ?_
    rintro _ s₃ ⟨rfl, h₃⟩
    rw [if_neg (by rw [hsemi]; simp)]
    exact ⟨by rw [map_backs, hu], h₃⟩
  | list p l t u k hp hl ihp ihl =>
    simp only [Sym.fuel] at hn
    obtain ⟨n, rfl⟩ : ∃ m, n = m + 1 := ⟨n - 1, by omega⟩
    have hsplit : p ++ List.replicate k .amp ++ .semi :: l ++ rest = p ++
      (List.replicate k .amp ++ .semi :: (l ++ rest)) := by simp
    rw [hsplit] at h hn
    change wp (parseline x (n + 1)) _ _ _
    rw [parseline]
    refine wp_seq (ihp (follow_amps k rfl) h (by simp only [Sym.fuel]; omega)) ?_
    rintro u₁ s₁ ⟨hu₁, h₁⟩
    rw [List.length_append] at hn
    refine wp_seq (parsebacks_complete k rfl h₁ (by omega)) ?_
    rintro _ s₂ ⟨rfl, h₂⟩
    refine wp_then (peek_spec _ (by decide) h₂) ?_
    rintro _ s₃ ⟨rfl, h₃⟩
    rw [if_pos (starts_semi.mpr ⟨_, rfl⟩)]
    refine wp_then (gettoken_cons h₃) ?_
    rintro _ s₄ ⟨_, _, h₄⟩
    rw [List.length_append, List.length_cons] at hn
    refine wp_seq (ihl hrest h₄ (by simp only [Sym.fuel]; omega)) ?_
    rintro u₂ s₅ ⟨hu₂, h₅⟩
    exact ⟨by rw [Tree.map, map_backs, hu₁, hu₂], h₅⟩
  | exec e t he ih =>
    simp only [Sym.fuel] at hn
    obtain ⟨n, rfl⟩ : ∃ m, n = m + 1 := ⟨n - 1, by omega⟩
    obtain ⟨hexec, hbar⟩ := follow_exec_of_pipe hrest
    change wp (parsepipe x (n + 1)) _ _ _
    rw [parsepipe]
    refine wp_seq (ih hexec h (by simp only [Sym.fuel]; omega)) ?_
    rintro u s₁ ⟨hu, h₁⟩
    refine wp_then (peek_spec _ (by decide) h₁) ?_
    rintro _ s₂ ⟨rfl, h₂⟩
    rw [if_neg (by rw [hbar]; simp)]
    exact ⟨hu, h₂⟩
  | bar e p t u he hp ihe ihp =>
    simp only [Sym.fuel] at hn
    obtain ⟨n, rfl⟩ : ∃ m, n = m + 1 := ⟨n - 1, by omega⟩
    rw [List.append_assoc, List.cons_append] at h hn
    change wp (parsepipe x (n + 1)) _ _ _
    rw [parsepipe]
    refine wp_seq (ihe rfl h (by simp only [Sym.fuel]; omega)) ?_
    rintro u₁ s₁ ⟨hu₁, h₁⟩
    refine wp_then (peek_spec _ (by decide) h₁) ?_
    rintro _ s₂ ⟨rfl, h₂⟩
    rw [if_pos (starts_bar.mpr ⟨_, rfl⟩)]
    refine wp_then (gettoken_cons h₂) ?_
    rintro _ s₃ ⟨_, _, h₃⟩
    rw [List.length_append, List.length_cons] at hn
    refine wp_seq (ihp hrest h₃ (by simp only [Sym.fuel]; omega)) ?_
    rintro u₂ s₄ ⟨hu₂, h₄⟩
    exact ⟨by rw [Tree.map, hu₁, hu₂], h₄⟩
  | block l t rs hl ih =>
    simp only [Sym.fuel] at hn
    have hsplit : .lpar :: l ++ .rpar :: Redirs.toks rs ++ rest = .lpar ::
      (l ++ .rpar :: (Redirs.toks rs ++ rest)) := by simp
    rw [hsplit] at h hn
    rw [List.length_cons] at hn
    obtain ⟨n, rfl⟩ : ∃ m, n = m + 2 := ⟨n - 2, by omega⟩
    change wp (parseexec x (n + 1 + 1)) _ _ _
    rw [parseexec]
    refine wp_then (peek_spec _ (by decide) h) ?_
    rintro _ s₁ ⟨rfl, h₁⟩
    rw [if_pos (starts_lpar.mpr ⟨_, rfl⟩), parseblock]
    refine wp_then (peek_spec _ (by decide) h₁) ?_
    rintro _ s₂ ⟨rfl, h₂⟩
    rw [if_pos (starts_lpar.mpr ⟨_, rfl⟩)]
    refine wp_then (gettoken_cons h₂) ?_
    rintro _ s₃ ⟨_, _, h₃⟩
    refine wp_seq (ih rfl h₃ (by simp only [Sym.fuel]; omega)) ?_
    rintro u s₄ ⟨hu, h₄⟩
    refine wp_then (peek_spec _ (by decide) h₄) ?_
    rintro _ s₅ ⟨rfl, h₅⟩
    rw [if_pos (starts_rpar.mpr ⟨_, rfl⟩)]
    refine wp_then (gettoken_cons h₅) ?_
    rintro _ s₆ ⟨_, _, h₆⟩
    rw [List.length_append, List.length_cons] at hn
    refine wp_mono _ _ _ _ _ _ (parseredirs_complete rs (not_redir_of_follow hrest).1 h₆ (by omega)) ?_ fun _ _ he => he
    rintro v s' ⟨hv, hs'⟩
    exact ⟨by rw [hv, hu], hs'⟩
  | simple rs as hlen =>
    simp only [Sym.fuel] at hn
    obtain ⟨n, rfl⟩ : ∃ m, n = m + 1 := ⟨n - 1, by omega⟩
    obtain ⟨hlpar, hdir⟩ := simple_starts rs as hrest
    change wp (parseexec x (n + 1)) _ _ _
    rw [parseexec]
    refine wp_then (peek_spec _ (by decide) h) ?_
    rintro _ s₁ ⟨rfl, h₁⟩
    rw [if_neg (by rw [hlpar]; simp)]
    rw [List.append_assoc] at h₁ hn
    refine wp_seq (parseredirs_complete rs hdir h₁ (by omega)) ?_
    rintro ret s₂ ⟨hret, h₂⟩
    rw [List.length_append] at hn
    have hlen' : 0 + as.length < MAXARGS := by simpa [Args.words] using hlen
    exact parseargs_complete rs [] as hret hlen' hrest h₂ (by omega)

theorem flush_length (w : List Char) (ts : List (Tok (List Char))) : (flush w ts).length ≤ w.length + ts.length := by
  unfold flush
  split_ifs with hw
  · omega
  · have := List.length_pos_iff.mpr hw
    rw [List.length_cons]
    omega

theorem lex_length (w l : List Char) : (lex w l).length ≤ w.length + l.length := by
  induction w, l using lex.induct with
  | case1 w => exact flush_length w []
  | case2 w l ih =>
    rw [lex]
    have := flush_length w (.dir .append :: lex [] l)
    simp only [List.length_cons, List.length_nil] at *
    omega
  | case3 w c l hgt hspace ih =>
    rw [lex.eq_3 _ _ _ hgt, if_pos hspace]
    have := flush_length w (lex [] l)
    simp only [List.length_cons, List.length_nil] at *
    omega
  | case4 w c l hgt hspace t ht ih =>
    rw [lex.eq_3 _ _ _ hgt, if_neg hspace, ht]
    have := flush_length w (t :: lex [] l)
    simp only [List.length_cons, List.length_nil] at *
    omega
  | case5 w c l hgt hspace ht ih =>
    rw [lex.eq_3 _ _ _ hgt, if_neg hspace, ht]
    simp only [List.length_append, List.length_cons, List.length_nil] at *
    omega

theorem at_start (x : Input) : At x (lex [] x.buf) 0 := ⟨Nat.zero_le _, rfl⟩

theorem fuel_start (hn : 4 * x.buf.length + 4 ≤ n) : Sym.line.fuel (lex [] x.buf).length ≤ n := by
  have := lex_length [] x.buf
  simp only [Sym.fuel, List.length_nil] at *
  omega

theorem parsewhole_sound (hn : 4 * x.buf.length + 4 ≤ n) :
    wp (parsewhole x n) (fun t _ => Derives .line (lex [] x.buf) (t.map (text x))) Panics 0 := by
  unfold parsewhole
  refine wp_seq (parse_sound n .line _ 0 (at_start x) (fuel_start hn)) ?_
  rintro t s₁ ⟨pre, rest, hts, ht, h₁⟩
  refine wp_then (peek_end h₁) fun _ s₂ hend => ?_
  rw [wp_bind, wp_get]
  split_ifs with hes
  · exact Fail.noConfusion
  · obtain rfl := hend.mp (not_not.mp hes)
    rw [List.append_nil] at hts
    rw [wp_pure, hts]
    exact ht

theorem parsewhole_complete {t : Tree (List Char)} (hn : 4 * x.buf.length + 4 ≤ n)
    (hd : Derives .line (lex [] x.buf) t) :
    wp (parsewhole x n) (fun u _ => u.map (text x) = t) (fun _ _ => False) 0 := by
  unfold parsewhole
  have h : At x (lex [] x.buf ++ []) 0 := by
    rw [List.append_nil]
    exact at_start x
  refine wp_seq (parse_complete (n := n) hd rfl h (by rw [List.append_nil]; exact fuel_start hn)) ?_
  rintro u s₁ ⟨hu, h₁⟩
  refine wp_then (peek_end h₁) fun _ s₂ hend => ?_
  rw [wp_bind, wp_get, if_neg (not_not.mpr (hend.mpr rfl))]
  exact hu

/-- **`parsecmd` accepts the grammar.** It returns or panics, it returns exactly for the lines that the grammar derives,
and then with the tree of the derivation. -/
theorem parsecmd_accepts (x : Input) (n : Nat) (hn : 4 * x.buf.length + 4 ≤ n) :
    ((∃ t buf, parsecmd n x = .ok (t, buf)) ∨ ∃ p, parsecmd n x = .error (.panic p)) ∧
    (∀ t, (∃ u buf, parsecmd n x = .ok (u, buf) ∧ u.map (text x) = t) ↔ Derives .line (lex [] x.buf) t) ∧
    ((∃ p, parsecmd n x = .error (.panic p)) ↔ ¬ ∃ t, Derives .line (lex [] x.buf) t) := by
  have hsound := parsewhole_sound (x := x) hn
  have hcomplete := fun t => parsewhole_complete (x := x) (t := t) hn
  unfold parsecmd
  unfold wp at hsound hcomplete
  rcases hp : parsewhole x n 0 with ⟨e | u, s'⟩ <;> simp only [hp] at hsound hcomplete
  · have hno : ¬ ∃ t, Derives .line (lex [] x.buf) t := fun ⟨t, ht⟩ => hcomplete t ht
    rcases e with p | _
    · refine ⟨.inr ⟨p, rfl⟩, fun t => iff_of_false ?_ fun ht => hno ⟨t, ht⟩, iff_of_true ⟨p, rfl⟩ hno⟩
      rintro ⟨u, buf, he, -⟩
      cases he
    · exact absurd rfl hsound
  · refine ⟨.inl ⟨u, _, rfl⟩, fun t => ⟨?_, fun ht => ⟨u, _, rfl, hcomplete t ht⟩⟩, iff_of_false ?_
      fun hno => hno ⟨_, hsound⟩⟩
    · rintro ⟨u', buf, he, rfl⟩
      cases he
      exact hsound
    · rintro ⟨p, he⟩
      cases he

def line : Input where
  buf := ['a', '>', 'b', ' ', 'c', '|', '(', 'd', ';', ')', '&']
  noNul := by simp

theorem parsecmd_accepts_line : Derives .line (lex [] line.buf) (.back (.pipe
    (.redir (.exec [['a'], ['c']]) ['b'] (O_WRONLY ||| O_CREATE) 1) (.list (.exec [['d']]) (.exec [])))) := by
  have hrun : (parsecmd 48 line).map (fun r => r.1.map (text line)) = .ok (.back (.pipe
      (.redir (.exec [['a'], ['c']]) ['b'] (O_WRONLY ||| O_CREATE) 1) (.list (.exec [['d']]) (.exec [])))) := by
    rfl
  refine ((parsecmd_accepts line 48 (by decide)).2.1 _).mp ?_
  rcases hp : parsecmd 48 line with e | ⟨u, buf⟩ <;> rw [hp] at hrun
  · cases hrun
  · exact ⟨u, buf, rfl, Except.ok.inj hrun⟩

end Xv6.Shell
