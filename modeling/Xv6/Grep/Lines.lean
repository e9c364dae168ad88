import Mathlib.Data.List.TakeWhile
import Xv6.Grep.Code

/-!
# Lines that arrive in pieces

`grep` keeps the unfinished line at the start of its buffer. But a buffer without a line end is thrown away, also when
the line is only not complete yet.
-/

namespace Xv6.Grep

variable {buf buf' : Buffer} {p n : Nat} {l line rest last : List Char} {ls : List (List Char)} {pattern : List Char}

def At (buf : Buffer) (p : Nat) (l : List Char) : Prop := ∀ i (h : i < l.length), buf (p + i) = l[i]

theorem At.left (h : At buf p (l ++ rest)) : At buf p l := by
  intro i hi
  rw [h i (by rw [List.length_append]; omega), List.getElem_append_left hi]

theorem At.right (h : At buf p (l ++ rest)) : At buf (p + l.length) rest := by
  intro i hi
  rw [Nat.add_assoc, h (l.length + i) (by rw [List.length_append]; omega),
    List.getElem_append_right (Nat.le_add_right ..)]
  simp

theorem At.append (hl : At buf p l) (hr : At buf (p + l.length) rest) : At buf p (l ++ rest) := by
  intro i hi
  rw [List.length_append] at hi
  rw [List.getElem_append]
  split_ifs with hlt
  · exact hl i hlt
  · rw [← hr (i - l.length) (by omega), Nat.add_assoc, Nat.add_sub_cancel' (Nat.not_lt.mp hlt)]

theorem At.congr (h : At buf p l) (hsame : ∀ i < l.length, buf' (p + i) = buf (p + i)) : At buf' p l := by
  intro i hi
  rw [hsame i hi, h i hi]

theorem length_bytesAt (buf : Buffer) (p n : Nat) : (bytesAt buf p n).length = n := by simp [bytesAt]

theorem getElem_bytesAt (i : Nat) (h : i < (bytesAt buf p n).length) : (bytesAt buf p n)[i] = buf (p + i) := by
  simp [bytesAt]

theorem At.bytes (h : At buf p l) : bytesAt buf p l.length = l := by
  apply List.ext_getElem
  · exact length_bytesAt ..
  · intro i _ hi
    rw [getElem_bytesAt, h i hi]

theorem At.head {c : Char} (h : At buf p (c :: l)) : buf p = c := h 0 (Nat.zero_lt_succ _)

theorem At.tail {c : Char} (h : At buf p (c :: l)) : At buf (p + 1) l := At.right (l := [c]) h

theorem At.put (buf : Buffer) (p : Nat) (l : List Char) : At (put buf p l) p l := by
  intro i hi
  rw [Grep.put, if_pos (Nat.le_add_right p i), Nat.add_sub_cancel_left, List.getElem?_eq_getElem hi, Option.getD_some]

theorem put_below {k : Nat} (h : k < p) : put buf p l k = buf k := if_neg (Nat.not_le.mpr h)

theorem memmove_lt {k : Nat} (h : k < n) : memmove buf p n k = buf (p + k) := if_pos h

theorem stringAt_eq (h : At buf p l) (hend : buf (p + l.length) = NUL) (hnul : NUL ∉ l) (hfit : p + l.length < BUFSZ) :
    stringAt buf p = l := by
  have hbytes : bytesAt buf p (BUFSZ - p) = l ++ NUL :: bytesAt buf (p + l.length + 1)
    (BUFSZ - (p + l.length + 1)) := by
    apply List.ext_getElem
    · simp only [length_bytesAt, List.length_append, List.length_cons]
      omega
    · intro i hi hi'
      rw [getElem_bytesAt, List.getElem_append]
      split_ifs with hlt
      · exact h i hlt
      · rw [List.getElem_cons]
        split_ifs with hzero
        · rw [← hend]
          congr 2
          omega
        · rw [getElem_bytesAt]
          congr 1
          omega
  have hall : ∀ c ∈ l, decide (c ≠ NUL) = true := fun c hc => decide_eq_true fun hcn => hnul (hcn ▸ hc)
  rw [stringAt, hbytes, List.takeWhile_append_of_pos hall, List.takeWhile_cons_of_neg (by simp), List.append_nil]

theorem strchr_none (h : At buf p l) (hend : buf (p + l.length) = NUL) (hline : '\n' ∉ l) (n : Nat) :
    strchr buf '\n' n p = none := by
  induction n generalizing p l with
  | zero => rfl
  | succ n ih =>
    rw [strchr]
    split_ifs with hnul hnl
    · rfl
    · cases l with
      | nil => exact absurd hend hnul
      | cons c l => exact absurd (h.head.symm.trans hnl ▸ List.mem_cons_self) hline
    · cases l with
      | nil => exact absurd hend hnul
      | cons c l =>
        refine ih h.tail ?_ fun hmem => hline (List.mem_cons_of_mem c hmem)
        rw [← hend, List.length_cons]
        congr 1
        omega

theorem strchr_line (h : At buf p (line ++ '\n' :: rest)) (hline : '\n' ∉ line) (hnul : NUL ∉ line)
    (hn : line.length < n) :
    strchr buf '\n' n p = some (p + line.length) := by
  induction line generalizing p n with
  | nil =>
    obtain ⟨n, rfl⟩ := Nat.exists_eq_succ_of_ne_zero hn.ne'
    rw [strchr, h.head, if_neg (by decide), if_pos rfl]
    rfl
  | cons c line ih =>
    obtain ⟨n, rfl⟩ := Nat.exists_eq_succ_of_ne_zero (Nat.zero_lt_of_lt hn).ne'
    have hc : c ≠ NUL := fun hcn => hnul (hcn ▸ List.mem_cons_self)
    have hc' : c ≠ '\n' := fun hcn => hline (hcn ▸ List.mem_cons_self)
    rw [strchr, h.head, if_neg hc, if_neg hc']
    rw [ih h.tail (fun hmem => hline (List.mem_cons_of_mem c hmem)) (fun hmem => hnul (List.mem_cons_of_mem c hmem))
      (Nat.lt_of_succ_lt_succ hn), List.length_cons]
    congr 1
    omega

def unlines (ls : List (List Char)) : List Char := ls.flatMap (· ++ ['\n'])

def matched (pattern : List Char) (ls : List (List Char)) : List (List Char) :=
  (ls.filter (matchText pattern)).map (· ++ ['\n'])

def Lines (ls : List (List Char)) : Prop := ∀ l ∈ ls, '\n' ∉ l ∧ NUL ∉ l

theorem unlines_cons (line : List Char) (ls : List (List Char)) :
    unlines (line :: ls) = line ++ '\n' :: unlines ls := by
  simp [unlines]

theorem matched_append (ls ls' : List (List Char)) :
    matched pattern (ls ++ ls') = matched pattern ls ++ matched pattern ls' := by
  simp [matched]

theorem scan_line (pattern : List Char) (h : At buf p (line ++ '\n' :: rest)) (hline : '\n' ∉ line) (hnul : NUL ∉ line)
    (hfit : p + line.length < BUFSZ) (n : Nat) (out : List (List Char)) :
    ∃ buf', scan pattern (n + 1) buf p out = scan pattern n buf' (p + line.length + 1) (out ++ matched pattern [line]) ∧
      ∀ k, p + line.length + 1 ≤ k → buf' k = buf k := by
  have hq : buf (p + line.length) = '\n' := h.right.head
  have hcut : stringAt (Function.update buf (p + line.length) NUL) p = line := by
    refine stringAt_eq (h.left.congr fun i hi => ?_) (Function.update_self ..) hnul hfit
    exact Function.update_of_ne (by omega) ..
  have hfull : bytesAt buf p (p + line.length + 1 - p) = line ++ ['\n'] := by
    rw [List.append_cons] at h
    rw [← h.left.bytes, List.length_append, List.length_singleton]
    congr 1
    omega
  have hback : Function.update (Function.update buf (p + line.length) NUL) (p + line.length) '\n' = buf := by
    rw [Function.update_idem, ← hq, Function.update_eq_self]
  rw [scan, strchr_line h hline hnul (by omega)]
  dsimp only
  rw [hcut, hback, hfull]
  split_ifs with hm
  · exact ⟨buf, by simp [matched, hm], fun _ _ => rfl⟩
  · refine ⟨Function.update buf (p + line.length) NUL, by simp [matched, hm], fun k hk => ?_⟩
    exact Function.update_of_ne (by omega) ..

theorem scan_lines (pattern : List Char) (ls : List (List Char)) (hls : Lines ls) (hlast : '\n' ∉ last)
    (h : At buf p (unlines ls ++ last))
    (hend : buf (p + (unlines ls ++ last).length) = NUL) (hfit : p + (unlines ls ++ last).length < BUFSZ)
    (hn : ls.length < n) (out : List (List Char)) :
    ∃ buf', scan pattern n buf p out = (buf', p + (unlines ls).length, out ++ matched pattern ls) ∧
      ∀ k, p + (unlines ls).length ≤ k → buf' k = buf k := by
  induction ls generalizing buf p n out with
  | nil =>
    obtain ⟨n, rfl⟩ := Nat.exists_eq_succ_of_ne_zero (Nat.ne_of_gt hn)
    refine ⟨buf, ?_, fun _ _ => rfl⟩
    rw [scan, strchr_none h hend hlast]
    simp [unlines, matched]
  | cons line ls ih =>
    obtain ⟨n, rfl⟩ := Nat.exists_eq_succ_of_ne_zero (Nat.ne_of_gt (Nat.zero_lt_of_lt hn))
    obtain ⟨hline, hnul⟩ := hls line List.mem_cons_self
    have hlen : (unlines (line :: ls) ++ last).length = line.length + 1 + (unlines ls ++ last).length := by
      simp only [unlines_cons, List.length_append, List.length_cons]
      omega
    rw [hlen] at hend hfit
    rw [unlines_cons, List.append_assoc, List.cons_append] at h
    obtain ⟨buf₁, hscan, hsame⟩ := scan_line pattern h hline hnul (by omega) n out
    have hrest : At buf₁ (p + line.length + 1) (unlines ls ++ last) := h.right.tail.congr fun i _ => hsame _ (by omega)
    have hend₁ : buf₁ (p + line.length + 1 + (unlines ls ++ last).length) = NUL := by
      rw [hsame _ (by omega), ← hend]
      congr 1
      omega
    obtain ⟨buf₂, hscan₂, hsame₂⟩ := ih (fun l hl => hls l (List.mem_cons_of_mem _ hl)) hrest hend₁ (by omega)
      (Nat.lt_of_succ_lt_succ hn) (out ++ matched pattern [line])
    have hp : p + line.length + 1 + (unlines ls).length = p + (unlines (line :: ls)).length := by
      simp only [unlines_cons, List.length_append, List.length_cons]
      omega
    rw [hp] at hscan₂ hsame₂
    refine ⟨buf₂, ?_, fun k hk => ?_⟩
    · rw [hscan, hscan₂, List.append_assoc, ← matched_append, List.singleton_append]
    · rw [hsame₂ k hk, hsame k]
      rw [unlines_cons, List.length_append, List.length_cons] at hk
      omega

structure Holds (s : State) (rest : List Char) : Prop where
  len : s.m = rest.length
  text : At s.buf 0 rest
  line : '\n' ∉ rest
  nul : NUL ∉ rest

theorem length_le_unlines (ls : List (List Char)) : ls.length ≤ (unlines ls).length := by
  induction ls with
  | nil => exact Nat.zero_le _
  | cons line ls ih =>
    rw [unlines_cons, List.length_append, List.length_cons, List.length_cons]
    omega

theorem unlines_pos (h : ls ≠ []) : 0 < (unlines ls).length :=
  (List.length_pos_iff.mpr h).trans_le (length_le_unlines ls)

variable {s : State} {piece : List Char}

theorem turn_lines (pattern : List Char) (hs : Holds s rest) (hfit : rest.length + piece.length < BUFSZ)
    (hnul : NUL ∉ piece) (hls : Lines ls) (hlast : '\n' ∉ last) (hdata : rest ++ piece = unlines ls ++ last) :
    (turn pattern s piece).out = s.out ++ matched pattern ls ∧
      Holds (turn pattern s piece) (if ls = [] then [] else last) := by
  have hlen : rest.length + piece.length = (unlines ls ++ last).length := by rw [← hdata, List.length_append]
  generalize hbuf : Function.update (put s.buf s.m piece) (s.m + piece.length) NUL = buf
  have hend : buf (0 + (unlines ls ++ last).length) = NUL := by
    rw [← hbuf, ← hlen, hs.len, Nat.zero_add, Function.update_self]
  have htext : At buf 0 (unlines ls ++ last) := by
    rw [← hdata, ← hbuf, hs.len]
    apply At.append
    · refine hs.text.congr fun i hi => ?_
      rw [Function.update_of_ne (by omega), put_below (by omega)]
    · rw [Nat.zero_add]
      refine (At.put s.buf rest.length piece).congr fun i hi => ?_
      rw [Function.update_of_ne (by omega)]
  have hmany : ls.length < BUFSZ := by
    have := length_le_unlines ls
    rw [List.length_append] at hlen
    omega
  obtain ⟨buf', hscan, hsame⟩ := scan_lines pattern ls hls hlast htext hend (by omega) hmany s.out
  rw [Nat.zero_add] at hscan hsame
  have hturn : turn pattern s piece =
      if 0 < (if (unlines ls).length = 0 then 0 else s.m + piece.length) then
        ⟨memmove buf' (unlines ls).length ((if (unlines ls).length = 0 then 0 else s.m + piece.length) -
          (unlines ls).length),
          (if (unlines ls).length = 0 then 0 else s.m + piece.length) - (unlines ls).length,
          s.out ++ matched pattern ls⟩
      else ⟨buf', if (unlines ls).length = 0 then 0 else s.m + piece.length, s.out ++ matched pattern ls⟩ := by
    rw [turn, hbuf, hscan]
  rw [hturn]
  by_cases hne : ls = []
  · subst hne
    exact ⟨rfl, rfl, fun i hi => absurd hi (Nat.not_lt_zero i), List.not_mem_nil, List.not_mem_nil⟩
  · have hpos := unlines_pos hne
    have hm : s.m + piece.length - (unlines ls).length = last.length := by
      rw [hs.len, hlen, List.length_append, Nat.add_sub_cancel_left]
    rw [if_neg hpos.ne', if_pos (by rw [hs.len, hlen, List.length_append]; omega), if_neg hne, hm]
    refine ⟨rfl, rfl, fun i hi => ?_, hlast, fun hmem => ?_⟩
    · dsimp only
      rw [Nat.zero_add, memmove_lt hi, hsame _ (Nat.le_add_right ..)]
      have := htext.right i hi
      rwa [Nat.zero_add] at this
    · have hall : NUL ∈ rest ++ piece := by
        rw [hdata]
        exact List.mem_append_right _ hmem
      exact (List.mem_append.mp hall).elim hs.nul hnul

theorem lines_cons {c : Char} (hc : c ≠ '\n') (hc' : c ≠ NUL) (h : Lines (line :: ls)) : Lines ((c :: line) :: ls) := by
  intro l hl
  rcases List.mem_cons.mp hl with rfl | hl
  · obtain ⟨hnl, hnul⟩ := h line List.mem_cons_self
    exact ⟨List.not_mem_cons_of_ne_of_not_mem hc.symm hnl, List.not_mem_cons_of_ne_of_not_mem hc'.symm hnul⟩
  · exact h l (List.mem_cons_of_mem line hl)

theorem exists_lines (l : List Char) (hnul : NUL ∉ l) : ∃ ls last, Lines ls ∧ '\n' ∉ last ∧ l = unlines ls ++ last := by
  induction l with
  | nil => exact ⟨[], [], nofun, List.not_mem_nil, rfl⟩
  | cons c l ih =>
    obtain ⟨ls, last, hls, hlast, rfl⟩ := ih fun h => hnul (List.mem_cons_of_mem c h)
    have hc' : c ≠ NUL := fun h => hnul (h ▸ List.mem_cons_self)
    by_cases hc : c = '\n'
    · subst hc
      refine ⟨[] :: ls, last, fun l hl => ?_, hlast, by rw [unlines_cons]; rfl⟩
      rcases List.mem_cons.mp hl with rfl | hl
      · exact ⟨List.not_mem_nil, List.not_mem_nil⟩
      · exact hls l hl
    · cases ls with
      | nil => exact ⟨[], c :: last, nofun, List.not_mem_cons_of_ne_of_not_mem (Ne.symm hc) hlast, rfl⟩
      | cons line ls => exact ⟨(c :: line) :: ls, last, lines_cons hc hc' hls, hlast,
          by simp only [unlines_cons, List.cons_append]⟩

theorem cut_lines {more : List Char} (ls : List (List Char)) (hls : Lines ls) (h : l ++ more = unlines ls) :
    ∃ ls₁ ls₂ last, ls = ls₁ ++ ls₂ ∧ l = unlines ls₁ ++ last ∧ last ++ more = unlines ls₂ ∧ '\n' ∉ last := by
  induction ls generalizing l with
  | nil =>
    obtain ⟨rfl, rfl⟩ := List.append_eq_nil_iff.mp h
    exact ⟨[], [], [], rfl, rfl, rfl, List.not_mem_nil⟩
  | cons line ls ih =>
    have hline := (hls line List.mem_cons_self).1
    by_cases hshort : '\n' ∈ l
    · rw [unlines_cons] at h
      rcases List.append_eq_append_iff.mp h with ⟨a, rfl, -⟩ | ⟨a, rfl, ha⟩
      · exact absurd (List.mem_append_left a hshort) hline
      · cases a with
        | nil =>
          rw [List.append_nil] at hshort
          exact absurd hshort hline
        | cons c a =>
          obtain ⟨rfl, hmore⟩ := List.cons.inj ha
          obtain ⟨ls₁, ls₂, last, rfl, rfl, hrest, hlast⟩ :=
            ih (fun l hl => hls l (List.mem_cons_of_mem line hl)) hmore.symm
          refine ⟨line :: ls₁, ls₂, last, rfl, ?_, hrest, hlast⟩
          rw [unlines_cons, List.append_assoc, List.cons_append]
    · exact ⟨[], line :: ls, l, rfl, rfl, h, hshort⟩

theorem newline_mem (h : ls ≠ []) : '\n' ∈ unlines ls := by
  obtain ⟨line, ls, rfl⟩ := List.exists_cons_of_ne_nil h
  rw [unlines_cons]
  exact List.mem_append_right _ List.mem_cons_self

theorem lines_noNul (hls : Lines ls) : NUL ∉ unlines ls := by
  intro h
  obtain ⟨line, hline, hmem⟩ := List.mem_flatMap.mp h
  rcases List.mem_append.mp hmem with hmem | hmem
  · exact (hls line hline).2 hmem
  · exact absurd (List.mem_singleton.mp hmem) (by decide)

theorem Holds.init (buf : Buffer) : Holds ⟨buf, 0, []⟩ [] :=
  ⟨rfl, fun i hi => absurd hi (Nat.not_lt_zero i), List.not_mem_nil, List.not_mem_nil⟩

theorem Holds.fits (hs : Holds s rest) (hpiece : piece ≠ []) (h : piece.length ≤ BUFSZ - s.m - 1) :
    rest.length + piece.length < BUFSZ := by
  have := List.length_pos_iff.mpr hpiece
  rw [hs.len] at h
  omega

theorem foldl_lines (pattern : List Char) (pieces : List (List Char)) (hs : Holds s rest) (hls : Lines ls)
    (hcut : rest ++ pieces.flatten = unlines ls) (hreads : Reads pattern s pieces)
    (hnl : ∀ piece ∈ pieces, '\n' ∈ piece) : (pieces.foldl (turn pattern) s).out = s.out ++ matched pattern ls := by
  induction pieces generalizing s rest ls with
  | nil =>
    have hnone : ls = [] := by
      by_contra hne
      refine hs.line ?_
      rw [List.flatten_nil, List.append_nil] at hcut
      rw [hcut]
      exact newline_mem hne
    rw [hnone]
    exact (List.append_nil _).symm
  | cons piece pieces ih =>
    obtain ⟨hpiece, hfit, hreads⟩ := hreads
    rw [List.flatten_cons, ← List.append_assoc] at hcut
    have hnul : NUL ∉ piece := fun h => lines_noNul hls (hcut ▸ List.mem_append_left _ (List.mem_append_right _ h))
    obtain ⟨ls₁, ls₂, last, rfl, hdata, hrest, hlast⟩ := cut_lines ls hls hcut
    have hls₁ : Lines ls₁ := fun l hl => hls l (List.mem_append_left _ hl)
    have hls₂ : Lines ls₂ := fun l hl => hls l (List.mem_append_right _ hl)
    obtain ⟨hout, hholds⟩ := turn_lines pattern hs (hs.fits hpiece hfit) hnul hls₁ hlast hdata
    have hne : ls₁ ≠ [] := by
      rintro rfl
      refine hlast ?_
      rw [unlines, List.flatMap_nil, List.nil_append] at hdata
      rw [← hdata]
      exact List.mem_append_right _ (hnl piece List.mem_cons_self)
    rw [if_neg hne] at hholds
    rw [List.foldl_cons, ih hholds hls₂ hrest hreads fun piece hp => hnl piece (List.mem_cons_of_mem _ hp), hout,
      List.append_assoc, matched_append]

theorem matchText_nil (text : List Char) : matchText [] text = true := by
  have hhere : ∀ text, matchhere [] text = true := fun text => by rw [matchhere, if_pos (by rfl)]
  rw [matchText, if_neg (by decide)]
  cases text with
  | nil => exact hhere []
  | cons x text => rw [matchFrom, if_pos (hhere _)]

theorem matched_nil (ls : List (List Char)) : (matched [] ls).flatten = unlines ls := by
  have hall : ls.filter (matchText []) = ls := List.filter_eq_self.mpr fun l _ => matchText_nil l
  rw [matched, hall, unlines, List.flatMap]

theorem turn_length (hs : Holds s rest) (hpiece : piece ≠ []) (hfit : piece.length ≤ BUFSZ - s.m - 1)
    (hnul : NUL ∉ piece) :
    ∃ rest', Holds (turn [] s piece) rest' ∧
      (turn [] s piece).out.flatten.length + rest'.length ≤ s.out.flatten.length + rest.length + piece.length ∧
      ('\n' ∉ piece → (turn [] s piece).out.flatten.length + rest'.length < s.out.flatten.length + rest.length +
        piece.length) := by
  have hall : NUL ∉ rest ++ piece := fun h => (List.mem_append.mp h).elim hs.nul hnul
  obtain ⟨ls, last, hls, hlast, hdata⟩ := exists_lines (rest ++ piece) hall
  obtain ⟨hout, hholds⟩ := turn_lines [] hs (hs.fits hpiece hfit) hnul hls hlast hdata
  have hpos := List.length_pos_iff.mpr hpiece
  have hlen : rest.length + piece.length = (unlines ls).length + last.length := by
    rw [← List.length_append, hdata, List.length_append]
  refine ⟨_, hholds, ?_⟩
  rw [hout, List.flatten_append, matched_nil, List.length_append]
  by_cases hne : ls = []
  · subst hne
    rw [if_pos rfl]
    constructor
    · simp [unlines]
      omega
    · intro _
      simp [unlines]
      omega
  · rw [if_neg hne]
    refine ⟨by omega, fun hnl => absurd ?_ (fun h => (List.mem_append.mp h).elim hs.line hnl)⟩
    rw [hdata]
    exact List.mem_append_left _ (newline_mem hne)

theorem foldl_length (pieces : List (List Char)) (hs : Holds s rest) (hreads : Reads [] s pieces)
    (hnul : NUL ∉ pieces.flatten) :
    (pieces.foldl (turn []) s).out.flatten.length ≤ s.out.flatten.length + rest.length + pieces.flatten.length ∧
    ((∃ piece ∈ pieces, '\n' ∉ piece) →
      (pieces.foldl (turn []) s).out.flatten.length < s.out.flatten.length + rest.length + pieces.flatten.length) := by
  induction pieces generalizing s rest with
  | nil => exact ⟨by simp, fun ⟨_, hmem, _⟩ => absurd hmem List.not_mem_nil⟩
  | cons piece pieces ih =>
    obtain ⟨hpiece, hfit, hreads⟩ := hreads
    rw [List.flatten_cons] at hnul ⊢
    obtain ⟨rest', hholds, hle, hlt⟩ := turn_length hs hpiece hfit fun h => hnul (List.mem_append_left _ h)
    obtain ⟨ihle, ihlt⟩ := ih hholds hreads fun h => hnul (List.mem_append_right _ h)
    rw [List.foldl_cons, List.length_append]
    refine ⟨by omega, ?_⟩
    rintro ⟨bad, hmem, hbad⟩
    rcases List.mem_cons.mp hmem with rfl | hmem
    · have := hlt hbad
      omega
    · have := ihlt ⟨bad, hmem, hbad⟩
      omega

/-- The pattern decides what is written, not what is left in the buffer. -/
theorem Holds.reads {pattern pattern' : List Char} {s' : State} {pieces : List (List Char)} (hs : Holds s rest)
    (hs' : Holds s' rest) (hnul : NUL ∉ pieces.flatten) (h : Reads pattern s pieces) : Reads pattern' s' pieces := by
  induction pieces generalizing s s' rest with
  | nil => trivial
  | cons piece pieces ih =>
    obtain ⟨hpiece, hfit, hrest⟩ := h
    rw [List.flatten_cons, List.mem_append, not_or] at hnul
    obtain ⟨ls, last, hls, hlast, hdata⟩ :=
      exists_lines (rest ++ piece) fun h => (List.mem_append.mp h).elim hs.nul hnul.1
    have hlen := hs.fits hpiece hfit
    have hturn := (turn_lines pattern hs hlen hnul.1 hls hlast hdata).2
    have hturn' := (turn_lines pattern' hs' hlen hnul.1 hls hlast hdata).2
    exact ⟨hpiece, by rwa [hs'.len, ← hs.len], ih hturn hturn' hnul.2 hrest⟩

/-- **`grep` finds the lines of the input**, whatever the pattern, if and only if there is a line end in each piece that
`read` returns. -/
theorem grep_lines_iff (buf : Buffer) (ls : List (List Char)) (hls : Lines ls) (pieces : List (List Char))
    (hcut : pieces.flatten = unlines ls) {pattern₀ : List Char} (hreads : Reads pattern₀ ⟨buf, 0, []⟩ pieces) :
    (∀ pattern, grep pattern buf pieces = matched pattern ls) ↔ ∀ piece ∈ pieces, '\n' ∈ piece := by
  have hnul : NUL ∉ pieces.flatten := hcut ▸ lines_noNul hls
  have hall : ∀ pattern, Reads pattern ⟨buf, 0, []⟩ pieces :=
    fun _ => (Holds.init buf).reads (Holds.init buf) hnul hreads
  constructor
  · intro h piece hmem
    by_contra hnl
    have hlost := (foldl_length pieces (Holds.init buf) (hall []) hnul).2 ⟨piece, hmem, hnl⟩
    have hout := congrArg (fun out => out.flatten.length) (h [])
    rw [matched_nil, ← hcut] at hout
    simp only [grep] at hout
    simp only [List.flatten_nil, List.length_nil] at hlost
    omega
  · intro hnl pattern
    exact foldl_lines pattern pieces (Holds.init buf) hls hcut (hall pattern) hnl

theorem reads_short (pattern : List Char) (pieces : List (List Char)) (hs : Holds s rest)
    (hpieces : ∀ piece ∈ pieces, piece ≠ [])
    (hnul : NUL ∉ pieces.flatten) (hfit : rest.length + pieces.flatten.length < BUFSZ) : Reads pattern s pieces := by
  induction pieces generalizing s rest with
  | nil => trivial
  | cons piece pieces ih =>
    rw [List.flatten_cons] at hnul hfit
    rw [List.length_append] at hfit
    have hpiece : NUL ∉ piece := fun h => hnul (List.mem_append_left _ h)
    obtain ⟨ls, last, hls, hlast, hdata⟩ :=
      exists_lines (rest ++ piece) fun h => (List.mem_append.mp h).elim hs.nul hpiece
    have hlen := congrArg List.length hdata
    rw [List.length_append, List.length_append] at hlen
    obtain ⟨-, hholds⟩ := turn_lines pattern hs (by omega) hpiece hls hlast hdata
    refine ⟨hpieces piece List.mem_cons_self,
      by rw [hs.len]; omega, ih hholds ?_ (fun h => hnul (List.mem_append_right _ h)) ?_⟩
    · exact fun piece hp => hpieces piece (List.mem_cons_of_mem _ hp)
    · split_ifs
      · rw [List.length_nil]
        omega
      · omega

theorem grep_lines_iff_two : grep ['b'] (fun _ => NUL) [['a', '\n', 'b'], ['c', '\n']] = matched ['b']
    [['a'], ['b', 'c']] := by
  have hls : Lines [['a'], ['b', 'c']] := by
    unfold Lines
    decide
  have hreads : Reads [] ⟨fun _ => NUL, 0, []⟩ [['a', '\n', 'b'], ['c', '\n']] :=
    reads_short [] _ (Holds.init _) (by decide) (by decide) (by decide)
  have hiff := grep_lines_iff (fun _ => NUL) [['a'], ['b', 'c']] hls [['a', '\n', 'b'], ['c', '\n']] rfl hreads
  exact hiff.mpr (by decide) ['b']

theorem turn_start (hs : Holds s []) : (turn ['a'] s ['a', 'b']).out = s.out ∧ Holds (turn ['a'] s ['a', 'b']) [] := by
  have h : _ ∧ Holds (turn ['a'] s ['a', 'b']) (if ([] : List (List Char)) = [] then [] else ['a', 'b']) :=
    turn_lines ['a'] hs (by decide) (by decide) nofun (by decide) rfl
  rwa [matched, List.filter_nil, List.map_nil, List.append_nil, if_pos rfl] at h

theorem turn_end (hs : Holds s []) : (turn ['a'] s ['c', '\n']).out = s.out := by
  have hls : Lines [['c']] := by
    unfold Lines
    decide
  have h := (turn_lines ['a'] hs (by decide)
    (by decide) hls List.not_mem_nil (rfl : [] ++ ['c', '\n'] = unlines [['c']] ++ [])).1
  have hnone : matched ['a'] [['c']] = [] := by simp [matched, matchText, matchFrom, matchhere, deref, NUL]
  rwa [hnone, List.append_nil] at h

theorem grep_loses_start : Reads ['a'] ⟨fun _ => NUL, 0, []⟩ [['a', 'b'], ['c', '\n']] ∧
    grep ['a'] (fun _ => NUL) [['a', 'b'], ['c', '\n']] = [] ∧ matched ['a']
    [['a', 'b', 'c']] = [['a', 'b', 'c', '\n']] := by
  refine ⟨reads_short _ _ (Holds.init _) (by decide) (by decide) (by decide), ?_, ?_⟩
  · obtain ⟨hout, hholds⟩ := turn_start (Holds.init fun _ => NUL)
    rw [grep, List.foldl_cons, List.foldl_cons, List.foldl_nil, turn_end hholds, hout]
  · simp [matched, matchText, matchFrom, matchhere, deref, NUL]

end Xv6.Grep
