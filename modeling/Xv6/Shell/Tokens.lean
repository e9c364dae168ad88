import Mathlib
import Xv6.Shell.Grammar

/-! # `gettoken` and `peek` step through the tokens -/

open Lib Cmd

namespace Xv6.Shell

variable {x : Input} {s : Nat} {ts : List (Tok (List Char))}

theorem drop_takeWhile (p : Char → Bool) (l : List Char) : l.drop (l.takeWhile p).length = l.dropWhile p := by
  have h := List.takeWhile_append_dropWhile (p := p) (l := l)
  calc l.drop (l.takeWhile p).length = (l.takeWhile p ++ l.dropWhile p).drop (l.takeWhile p).length := by rw [h]
    _ = l.dropWhile p := List.drop_left

theorem deref_eq (x : Input) (s : Nat) : x.deref s = (x.buf.drop s).head?.getD '\x00' := by
  rw [Input.deref, List.head?_drop, List.getD_eq_getElem?_getD]

theorem scan_eq (p : Char → Bool) (n s : Nat) (hn : n = x.es - s) :
    scan p x n s = s + ((x.buf.drop s).takeWhile p).length := by
  induction n generalizing s with
  | zero =>
    have h : x.buf.drop s = [] := List.drop_eq_nil_of_le (by unfold Input.es at hn; omega)
    simp [scan, h]
  | succ n ih =>
    have hlt : s < x.buf.length := by unfold Input.es at hn; omega
    have hcons : x.buf.drop s = x.buf[s] :: x.buf.drop (s + 1) := List.drop_eq_getElem_cons hlt
    have hderef : x.deref s = x.buf[s] := by rw [deref_eq, hcons]; rfl
    rw [scan, hderef, hcons, List.takeWhile_cons]
    split_ifs with hp
    · rw [ih (s + 1) (by omega), List.length_cons]
      omega
    · simp

theorem drop_scan (p : Char → Bool) (hs : s ≤ x.es) :
    x.buf.drop (scan p x (x.es - s) s) = (x.buf.drop s).dropWhile p ∧ scan p x (x.es - s) s ≤ x.es := by
  rw [scan_eq p _ s rfl]
  constructor
  · rw [← List.drop_drop, drop_takeWhile]
  · have h := (List.takeWhile_sublist (l := x.buf.drop s) p).length_le
    rw [List.length_drop] at h
    unfold Input.es at hs ⊢
    omega

theorem lex_space {c : Char} (hc : whitespace.contains c = true) (l : List Char) : lex [] (c :: l) = lex [] l := by
  have hne : c ≠ '>' := by
    rintro rfl
    exact absurd hc (by decide)
  rw [lex.eq_3 _ _ _ fun l' h _ => hne h, if_pos hc]
  rfl

theorem lex_dropWhile (l : List Char) : lex [] (l.dropWhile fun c => whitespace.contains c) = lex [] l := by
  induction l with
  | nil => rfl
  | cons c l ih =>
    rw [List.dropWhile_cons]
    split_ifs with hc
    · rw [ih, lex_space hc]
    · rfl

theorem operator_of_wordChar {c : Char} (hc : wordChar c = true) : (operator c : Option (Tok (List Char))) = none := by
  unfold operator
  split <;> first | rfl | exact absurd hc (by decide)

theorem lex_wordChar {c : Char} (hc : wordChar c = true) (w l : List Char) : lex w (c :: l) = lex (w ++ [c]) l := by
  have hne : c ≠ '>' := by
    rintro rfl
    exact absurd hc (by decide)
  have hspace : whitespace.contains c = false := by
    unfold wordChar at hc
    rw [Bool.and_eq_true, Bool.not_eq_true'] at hc
    exact hc.1
  rw [lex.eq_3 _ _ _ fun l' h _ => hne h, if_neg (by rw [hspace]; simp), operator_of_wordChar hc]

theorem wordChar_of_operator {c : Char} (hspace : ¬ whitespace.contains c = true)
    (hop : (operator c : Option (Tok (List Char))) = none) : wordChar c = true := by
  unfold wordChar
  have hsym : symbols.contains c = false := by
    rw [Bool.eq_false_iff]
    intro h
    simp only [symbols, List.contains_iff_mem, List.mem_cons, List.not_mem_nil, or_false] at h
    rcases h with rfl | rfl | rfl | rfl | rfl | rfl | rfl <;> cases hop
  rw [hsym, Bool.eq_false_iff.mpr hspace]
  rfl

theorem lex_step {c : Char} {l : List Char} (hgt : ¬ ∃ l', c = '>' ∧ l = '>' :: l') (w : List Char) :
    lex w (c :: l) = if whitespace.contains c then flush w (lex [] l) else
      match operator c with
      | some t => flush w (t :: lex [] l)
      | none => lex (w ++ [c]) l :=
  lex.eq_3 _ _ _ fun l' h h' => hgt ⟨l', h, h'⟩

theorem lex_end {c : Char} (hc : wordChar c = false) (w l : List Char) :
    lex w (c :: l) = flush w (lex [] (c :: l)) := by
  by_cases hgt : ∃ l', c = '>' ∧ l = '>' :: l'
  · obtain ⟨l', rfl, rfl⟩ := hgt
    rfl
  · rw [lex_step hgt, lex_step hgt]
    split_ifs with hspace
    · rfl
    · split
      · rfl
      · rename_i hop
        rw [wordChar_of_operator hspace hop] at hc
        cases hc

theorem lex_word (w l : List Char) : lex w l = flush (w ++ l.takeWhile wordChar) (lex [] (l.dropWhile wordChar)) := by
  induction l generalizing w with
  | nil =>
    simp [lex, flush]
  | cons c l ih =>
    rw [List.takeWhile_cons, List.dropWhile_cons]
    split_ifs with hc
    · rw [lex_wordChar hc, ih, List.append_assoc]
      rfl
    · rw [List.append_nil]
      exact lex_end (by simpa using hc) w l

theorem lex_operator {c : Char} {t : Tok (List Char)} {l : List Char} (hop : operator c = some t)
    (hgt : ∀ l', c = '>' → l ≠ '>' :: l') : lex [] (c :: l) = t :: lex [] l := by
  have hspace : whitespace.contains c = false := by
    unfold operator at hop
    split at hop <;> first | rfl | cases hop
  rw [lex.eq_3 _ _ _ fun l' h h' => hgt l' h h', if_neg (by rw [hspace]; simp), hop]
  rfl

def Tok.ret {α : Type} : Tok α → Ret
  | .bar => .bar
  | .lpar => .lpar
  | .rpar => .rpar
  | .semi => .semi
  | .amp => .amp
  | .dir .input => .lt
  | .dir .output => .gt
  | .dir .append => .gtgt
  | .word _ => .word

def text (x : Input) (w : Span) : List Char := (x.buf.drop w.q).take (w.eq - w.q)

/-- The cursor is in front of the tokens `ts`. -/
structure At (x : Input) (ts : List (Tok (List Char))) (s : Nat) : Prop where
  le : s ≤ x.es
  lex : lex [] (x.buf.drop s) = ts

theorem At.skip (h : At x ts s) : At x ts (skip x s) := by
  obtain ⟨hdrop, hle⟩ := drop_scan (fun c => whitespace.contains c) h.le
  refine ⟨hle, ?_⟩
  unfold Shell.skip
  rw [hdrop, lex_dropWhile, h.lex]

theorem skip_cases (hs : s ≤ x.es) : skip x s = x.es ∧ x.buf.drop (skip x s) = [] ∨
    ∃ c l, x.buf.drop (skip x s) = c :: l ∧ skip x s < x.es ∧ whitespace.contains c = false ∧ c ≠ '\x00' := by
  obtain ⟨hdrop, hle⟩ := drop_scan (fun c => whitespace.contains c) hs
  unfold skip
  rcases hl : x.buf.drop (scan (fun c => whitespace.contains c) x (x.es - s) s) with _ | ⟨c, l⟩
  · refine .inl ⟨Nat.le_antisymm hle ?_, rfl⟩
    exact List.drop_eq_nil_iff.mp hl
  · have hmem : c ∈ x.buf := List.mem_of_mem_drop (hl ▸ List.mem_cons_self)
    refine .inr ⟨c, l, rfl, ?_, ?_, x.noNul c hmem⟩
    · refine Nat.lt_of_le_of_ne hle fun he => ?_
      rw [he, Input.es, List.drop_length] at hl
      cases hl
    · rw [hdrop] at hl
      have hhead := List.head?_dropWhile_not (fun c => whitespace.contains c) (x.buf.drop s)
      rw [hl] at hhead
      simpa using hhead

theorem drop_succ {c : Char} {l : List Char} (h : x.buf.drop s = c :: l) : x.buf.drop (s + 1) = l := by
  rw [← List.drop_drop, h]
  rfl

theorem lt_of_drop {c : Char} {l : List Char} (h : x.buf.drop s = c :: l) : s < x.es := by
  refine Nat.lt_of_not_ge fun hge => ?_
  rw [List.drop_eq_nil_of_le hge] at h
  cases h

theorem deref_cons {c : Char} {l : List Char} (h : x.buf.drop s = c :: l) : x.deref s = c := by
  rw [deref_eq, h]
  rfl

def Tok.isIn {α : Type} (toks : List Char) : Tok α → Bool
  | .bar => toks.contains '|'
  | .lpar => toks.contains '('
  | .rpar => toks.contains ')'
  | .semi => toks.contains ';'
  | .amp => toks.contains '&'
  | .dir .input => toks.contains '<'
  | .dir _ => toks.contains '>'
  | .word _ => false

structure Found (x : Input) (q : Nat) (t : Tok (List Char)) (rest : List (Tok (List Char))) (r : Ret × Nat) : Prop where
  ret : r.1 = t.ret
  first : ∀ toks, toks ⊆ symbols → t.isIn toks = toks.contains (x.deref q)
  text : ∀ w, t = .word w → text x ⟨q, r.2⟩ = w
  after : At x rest r.2

theorem token_operator {c : Char} {t : Tok (List Char)} {l : List Char} (hl : x.buf.drop s = c :: l)
    (hop : operator c = some t)
    (hgt : ∀ l', c = '>' → l ≠ '>' :: l') (ht : token x s = (t.ret, s + 1)) (hlex : lex [] (x.buf.drop s) = ts) :
    ∃ t rest, ts = t :: rest ∧ Found x s t rest (token x s) := by
  rw [hl, lex_operator hop hgt] at hlex
  refine ⟨t, lex [] l, hlex.symm, by rw [ht], fun toks _ => ?_, ?_, ?_⟩
  · rw [deref_cons hl]
    unfold operator at hop
    split at hop <;> cases hop <;> rfl
  · rintro w rfl
    unfold operator at hop
    split at hop <;> cases hop
  · rw [ht]
    refine ⟨lt_of_drop hl, ?_⟩
    rw [drop_succ hl]

theorem token_word {c : Char} {l : List Char} (hl : x.buf.drop s = c :: l) (hc : wordChar c = true)
    (ht : token x s = (.word, scan wordChar x (x.es - s) s)) (hlex : lex [] (x.buf.drop s) = ts) :
    ∃ t rest, ts = t :: rest ∧ Found x s t rest (token x s) := by
  obtain ⟨hdrop, hle⟩ := drop_scan wordChar (Nat.le_of_lt (lt_of_drop hl))
  have hne : (x.buf.drop s).takeWhile wordChar ≠ [] := by
    rw [hl, List.takeWhile_cons, if_pos hc]
    exact List.cons_ne_nil c _
  rw [lex_word, List.nil_append, flush, if_neg hne] at hlex
  refine ⟨_, _, hlex.symm, by rw [ht]; rfl, fun toks htoks => ?_, ?_, ?_⟩
  · rw [deref_cons hl]
    refine (Bool.eq_false_iff.mpr fun hmem => ?_).symm
    have hsym : symbols.contains c = true := List.contains_iff_mem.mpr (htoks (List.contains_iff_mem.mp hmem))
    rw [wordChar, hsym, Bool.not_true, Bool.and_false] at hc
    cases hc
  · rintro w hw
    rw [← Tok.word.inj hw, ht, text]
    rw [scan_eq wordChar _ s rfl, Nat.add_sub_cancel_left]
    exact List.prefix_iff_eq_take.mp ( List.takeWhile_prefix wordChar) |>.symm
  · rw [ht]
    exact ⟨hle, by dsimp only; rw [hdrop]⟩

theorem token_spec {c : Char} {l : List Char} (hl : x.buf.drop s = c :: l) (hspace : whitespace.contains c = false)
    (hnul : c ≠ '\x00') (hlex : lex [] (x.buf.drop s) = ts) : ∃ t rest, ts = t :: rest ∧
    Found x s t rest (token x s) := by
  have hderef := deref_cons hl
  by_cases hgt : c = '>'
  · subst hgt
    rcases l with _ | ⟨c', l⟩
    · have hd : x.deref (s + 1) ≠ '>' := by
        rw [deref_eq, drop_succ hl]
        decide
      exact token_operator (t := .dir .output) hl rfl (fun _ _ => nofun) (by simp [token, hderef, hd, Tok.ret]) hlex
    by_cases hc' : c' = '>'
    · subst hc'
      have hd : x.deref (s + 1) = '>' := deref_cons (drop_succ hl)
      have ht : token x s = (.gtgt, s + 2) := by simp [token, hderef, hd]
      rw [hl] at hlex
      refine ⟨.dir .append, lex [] l, hlex.symm, by rw [ht]; rfl, fun toks _ => by rw [hderef]; rfl, nofun, ?_⟩
      rw [ht]
      refine ⟨lt_of_drop (drop_succ hl), ?_⟩
      rw [drop_succ (drop_succ hl)]
    · have hd : x.deref (s + 1) ≠ '>' := by
        rw [deref_cons (drop_succ hl)]
        exact hc'
      refine token_operator (t := .dir .output) hl rfl (fun l' _ h => hc' ?_)
        (by simp [token, hderef, hd, Tok.ret]) hlex
      exact (List.cons.inj h).1
  · by_cases hop : (operator c : Option (Tok (List Char))) = none
    · refine token_word hl (wordChar_of_operator (by rw [hspace]; simp) hop) ?_ hlex
      unfold token
      rw [hderef]
      split <;> first | rfl | exact absurd rfl hnul | exact absurd rfl hgt | cases hop
    · obtain ⟨t, ht⟩ := Option.ne_none_iff_exists'.mp hop
      refine token_operator hl ht (fun _ h => absurd h hgt) ?_ hlex
      unfold token
      rw [hderef]
      unfold operator at ht
      split at ht <;> first | exact absurd rfl hgt | cases ht <;> rfl

theorem gettoken_nil (h : At x [] s) : wp (gettoken x) (fun r s' => r.1 = .eof ∧ At x [] s') (fun _ _ => False) s := by
  unfold gettoken
  simp only [wp_bind, wp_get, wp_modify, wp_pure]
  rcases skip_cases h.le with ⟨hq, hnil⟩ | ⟨c, l, hl, -, hspace, hnul⟩
  · have hd : x.deref (skip x s) = '\x00' := by
      rw [deref_eq, hnil]
      rfl
    have ht : token x (skip x s) = (.eof, skip x s) := by simp [token, hd]
    rw [ht]
    exact ⟨rfl, h.skip.skip⟩
  · obtain ⟨t, rest, he, -⟩ := token_spec hl hspace hnul h.skip.lex
    cases he

theorem gettoken_cons {t : Tok (List Char)} (h : At x (t :: ts) s) : wp (gettoken x)
    (fun r s' => r.1 = t.ret ∧ (∀ w, t = .word w → text x r.2 = w) ∧ At x ts s') (fun _ _ => False) s := by
  unfold gettoken
  simp only [wp_bind, wp_get, wp_modify, wp_pure]
  rcases skip_cases h.le with ⟨-, hnil⟩ | ⟨c, l, hl, -, hspace, hnul⟩
  · have hlex := h.skip.lex
    rw [hnil] at hlex
    cases hlex
  · obtain ⟨t', rest, he, hf⟩ := token_spec hl hspace hnul h.skip.lex
    obtain ⟨rfl, rfl⟩ := List.cons.inj he
    exact ⟨hf.ret, hf.text, hf.after.skip⟩

def starts {α : Type} (toks : List Char) (ts : List (Tok α)) : Bool := ts.head?.any (Tok.isIn toks)

theorem peek_spec (toks : List Char) (htoks : toks ⊆ symbols) (h : At x ts s) :
    wp (peek x toks) (fun b s' => b = starts toks ts ∧ At x ts s') (fun _ _ => False) s := by
  unfold peek
  simp only [wp_bind, wp_get, wp_modify, wp_pure]
  refine ⟨?_, h.skip⟩
  rcases skip_cases h.le with ⟨-, hnil⟩ | ⟨c, l, hl, -, hspace, hnul⟩
  · have hd : x.deref (skip x s) = '\x00' := by
      rw [deref_eq, hnil]
      rfl
    have hts := h.skip.lex
    rw [hnil] at hts
    rw [← hts, hd]
    rfl
  · obtain ⟨t, rest, rfl, hf⟩ := token_spec hl hspace hnul h.skip.lex
    have hd := deref_cons hl
    rw [starts, List.head?_cons, Option.any_some, hf.first toks htoks, hd, decide_eq_true hnul, Bool.true_and]

theorem peek_end (h : At x ts s) : wp (peek x []) (fun _ s' => (s' = x.es ↔ ts = [])) (fun _ _ => False) s := by
  unfold peek
  simp only [wp_bind, wp_get, wp_modify, wp_pure]
  have hlex := h.skip.lex
  rcases skip_cases h.le with ⟨hq, hnil⟩ | ⟨c, l, hl, hlt, hspace, hnul⟩
  · rw [hnil] at hlex
    exact iff_of_true hq hlex.symm
  · obtain ⟨t, rest, rfl, -⟩ := token_spec hl hspace hnul hlex
    exact iff_of_false (Nat.ne_of_lt hlt) (List.cons_ne_nil t rest)

end Xv6.Shell
