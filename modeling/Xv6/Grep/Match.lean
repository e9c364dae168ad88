import Mathlib.Computability.Language
import Xv6.Grep.Code
import Xv6.Lib.CString

/-!
# The matcher finds what the pattern means

A pattern is a list of items, each with a language. The matcher finds a string of their product in the text: at the
beginning of the text if the pattern starts with `^`, and up to its end if the pattern ends with `$`.
-/

open Lib

open scoped Computability

namespace Xv6.Grep

/-- The character `c` of a pattern and the character `x` of a text. -/
def Sees (c x : Char) : Prop := c = '.' ∨ c = x

inductive Item where
  | one (c : Char)
  | many (c : Char)

def seen (c : Char) : Language Char := {w | ∃ x, Sees c x ∧ w = [x]}

def Item.lang : Item → Language Char
  | .one c => seen c
  | .many c => (seen c)∗

structure Pattern where
  items : List Item
  atEnd : Bool

def Pattern.lang (p : Pattern) : Language Char := (p.items.map Item.lang).prod

def Pattern.cons (i : Item) (p : Pattern) : Pattern := { p with items := i :: p.items }

/-- From left to right. A `$` is special at the end only, a `*` only behind another character. -/
def parse : List Char → Pattern
  | [] => ⟨[], false⟩
  | c :: '*' :: re => (parse re).cons (.many c)
  | ['$'] => ⟨[], true⟩
  | c :: re => (parse re).cons (.one c)

/-- A string of `L` at the beginning of the text, and if `atEnd` then all of it. -/
def Starts (L : Language Char) (atEnd : Bool) (text : List Char) : Prop :=
  ∃ mid post, text = mid ++ post ∧ mid ∈ L ∧ (atEnd = true → post = [])

def Pattern.Here (p : Pattern) (text : List Char) : Prop := Starts p.lang p.atEnd text

def Found (re text : List Char) : Prop :=
  if re.head? = some '^' then (parse re.tail).Here text else ∃ pre rest, text = pre ++ rest ∧ (parse re).Here rest

variable {p : Pattern} {c : Char} {re text : List Char}

theorem here_nil : (⟨[], false⟩ : Pattern).Here text := ⟨[], text, rfl, rfl, nofun⟩

theorem here_end : (⟨[], true⟩ : Pattern).Here text ↔ text = [] := by
  constructor
  · rintro ⟨mid, post, rfl, hmid, hpost⟩
    have hmid : mid = [] := hmid
    rw [hmid, hpost rfl, List.append_nil]
  · rintro rfl
    exact ⟨[], [], rfl, rfl, fun _ => rfl⟩

theorem lang_cons (i : Item) : (p.cons i).lang = i.lang * p.lang := List.prod_cons

def Eats (c : Char) (P : List Char → Prop) (text : List Char) : Prop := ∃ x rest, text = x :: rest ∧ Sees c x ∧ P rest

theorem starts_one_mul {L : Language Char} {atEnd : Bool} :
    Starts (seen c * L) atEnd text ↔ Eats c (Starts L atEnd) text := by
  constructor
  · rintro ⟨mid, post, rfl, hmid, hpost⟩
    obtain ⟨_, ⟨x, hx, rfl⟩, rest, hrest, rfl⟩ := Language.mem_mul.mp hmid
    exact ⟨x, rest ++ post, rfl, hx, rest, post, rfl, hrest, hpost⟩
  · rintro ⟨x, _, rfl, hx, rest, post, rfl, hrest, hpost⟩
    exact ⟨x :: rest, post, rfl, Language.mem_mul.mpr ⟨[x], ⟨x, hx, rfl⟩, rest, hrest, rfl⟩, hpost⟩

theorem starts_add {L M : Language Char} {atEnd : Bool} :
    Starts (L + M) atEnd text ↔ Starts L atEnd text ∨ Starts M atEnd text := by
  constructor
  · rintro ⟨mid, post, htext, hmid | hmid, hpost⟩
    · exact .inl ⟨mid, post, htext, hmid, hpost⟩
    · exact .inr ⟨mid, post, htext, hmid, hpost⟩
  · rintro (⟨mid, post, htext, hmid, hpost⟩ | ⟨mid, post, htext, hmid, hpost⟩)
    · exact ⟨mid, post, htext, .inl hmid, hpost⟩
    · exact ⟨mid, post, htext, .inr hmid, hpost⟩

theorem here_one : (p.cons (.one c)).Here text ↔ Eats c p.Here text := by
  unfold Pattern.Here
  rw [lang_cons]
  exact starts_one_mul

theorem here_many : (p.cons (.many c)).Here text ↔ p.Here text ∨ Eats c (p.cons (.many c)).Here text := by
  have hstar : (p.cons (.many c)).lang = p.lang + seen c * (p.cons (.many c)).lang := by
    rw [lang_cons, Item.lang, ← mul_assoc, ← one_add_mul, Language.one_add_self_mul_kstar_eq_kstar]
  have hmore : Starts (seen c * (p.cons (.many c)).lang) p.atEnd text ↔ Eats c (p.cons (.many c)).Here text :=
    starts_one_mul
  unfold Pattern.Here
  nth_rw 1 [hstar]
  rw [starts_add]
  exact or_congr_right hmore

def NoNul (s : List Char) : Prop := NUL ∉ s

theorem NoNul.tail {s : List Char} (h : NoNul s) : NoNul s.tail := fun hmem => h (List.mem_of_mem_tail hmem)

theorem NoNul.deref {s : List Char} (h : NoNul s) : deref s = NUL ↔ s = [] := by
  cases s with
  | nil => exact iff_of_true rfl rfl
  | cons x s =>
    refine iff_of_false (fun hx => h ?_) (List.cons_ne_nil x s)
    rw [← hx]
    exact List.mem_cons_self

theorem eats_iff {P : List Char → Prop} (h : NoNul text) :
    (deref text ≠ NUL ∧ (c = '.' ∨ c = deref text)) ∧ P text.tail ↔ Eats c P text := by
  rw [Ne, h.deref]
  constructor
  · rintro ⟨⟨hne, hsees⟩, hrest⟩
    cases text with
    | nil => exact absurd rfl hne
    | cons x rest => exact ⟨x, rest, rfl, hsees, hrest⟩
  · rintro ⟨x, rest, rfl, hsees, hrest⟩
    exact ⟨⟨List.cons_ne_nil x rest, hsees⟩, hrest⟩

theorem parse_many (h : deref re.tail = '*') (hne : re ≠ []) :
    parse re = (parse re.tail.tail).cons (.many (deref re)) := by
  rcases re with _ | ⟨c, _ | ⟨c', re⟩⟩
  · exact absurd rfl hne
  · exact absurd h (by simp [deref, NUL])
  · obtain rfl : c' = '*' := h
    rw [parse]
    rfl

theorem parse_end (h : deref re = '$') (hend : re.tail = []) : parse re = ⟨[], true⟩ := by
  rcases re with _ | ⟨c, re⟩
  · exact absurd h (by decide)
  · obtain rfl : c = '$' := h
    obtain rfl : re = [] := hend
    rw [parse]

theorem parse_one (hne : re ≠ []) (hstar : deref re.tail ≠ '*') (hend : ¬ (deref re = '$' ∧ re.tail = [])) :
    parse re = (parse re.tail).cons (.one (deref re)) := by
  rcases re with _ | ⟨c, re⟩
  · exact absurd rfl hne
  · rw [parse]
    · rfl
    · rintro l rfl
      exact hstar rfl
    · rintro rfl rfl
      exact hend ⟨rfl, rfl⟩

theorem matcher_correct :
    (∀ re text, NoNul re → NoNul text → (matchhere re text = true ↔ (parse re).Here text)) ∧
    ∀ c re text, NoNul re → NoNul text → (matchstar c re text = true ↔ ((parse re).cons (.many c)).Here text) := by
  apply matchhere.mutual_induct
  case case1 =>
    intro re text hnul hre _
    obtain rfl := hre.deref.mp hnul
    rw [matchhere, if_pos hnul]
    exact iff_of_true rfl here_nil
  case case2 =>
    intro re text hnul hstar ih hre htext
    rw [matchhere, if_neg hnul, if_pos hstar, parse_many hstar (ne_nil_of_deref hnul)]
    exact ih hre.tail.tail htext
  case case3 =>
    intro re text hnul hstar hend hre htext
    rw [matchhere, if_neg hnul, if_neg hstar, if_pos hend, parse_end hend.1 (hre.tail.deref.mp hend.2), here_end,
      decide_eq_true_iff]
    exact htext.deref
  case case4 =>
    intro re text hnul hstar hend hsees ih hre htext
    rw [matchhere, if_neg hnul, if_neg hstar, if_neg hend, if_pos hsees, ih hre.tail htext.tail]
    rw [hre.tail.deref] at hend
    rw [parse_one (ne_nil_of_deref hnul) hstar hend, here_one, ← eats_iff htext]
    exact (and_iff_right hsees).symm
  case case5 =>
    intro re text hnul hstar hend hsees hre htext
    rw [matchhere, if_neg hnul, if_neg hstar, if_neg hend, if_neg hsees]
    rw [hre.tail.deref] at hend
    rw [parse_one (ne_nil_of_deref hnul) hstar hend, here_one, ← eats_iff htext]
    exact iff_of_false Bool.false_ne_true fun h => hsees h.1
  case case6 =>
    intro c re text hhere ih hre htext
    rw [matchstar, if_pos hhere, here_many]
    exact iff_of_true rfl (.inl ((ih hre htext).mp hhere))
  case case7 =>
    intro c re text hhere hsees ih ih' hre htext
    rw [matchstar, if_neg hhere, if_pos hsees, here_many, ← eats_iff htext, ih' hre htext.tail, ← ih hre htext]
    have hsees' : deref text ≠ NUL ∧ (c = '.' ∨ c = deref text) := ⟨hsees.1, hsees.2.symm.imp_right Eq.symm⟩
    exact ⟨fun h => .inr ⟨hsees', h⟩, fun h => (h.resolve_left hhere).2⟩
  case case8 =>
    intro c re text hhere hsees ih hre htext
    rw [matchstar, if_neg hhere, if_neg hsees, here_many, ← eats_iff htext, ← ih hre htext]
    refine iff_of_false Bool.false_ne_true fun h => hsees ?_
    have hsees' := (h.resolve_left hhere).1
    exact ⟨hsees'.1, hsees'.2.symm.imp_left Eq.symm⟩

theorem matchFrom_found (hre : NoNul re) (htext : NoNul text) :
    matchFrom re text = true ↔ ∃ pre rest, text = pre ++ rest ∧ (parse re).Here rest := by
  induction text with
  | nil =>
    rw [matchFrom, matcher_correct.1 re [] hre htext]
    constructor
    · intro h
      exact ⟨[], [], rfl, h⟩
    · rintro ⟨pre, rest, hnil, h⟩
      rwa [(List.append_eq_nil_iff.mp hnil.symm).2] at h
  | cons x text ih =>
    have hx : x ≠ NUL := fun hx => htext (hx ▸ List.mem_cons_self)
    have ih := ih htext.tail
    have hhere := matcher_correct.1 re (x :: text) hre htext
    rw [matchFrom, if_pos hx]
    split_ifs with hm
    · exact iff_of_true rfl ⟨[], x :: text, rfl, hhere.mp hm⟩
    · rw [ih]
      constructor
      · rintro ⟨pre, rest, rfl, h⟩
        exact ⟨x :: pre, rest, rfl, h⟩
      · rintro ⟨pre, rest, heq, h⟩
        cases pre with
        | nil =>
          rw [List.nil_append] at heq
          exact absurd (hhere.mpr (heq ▸ h)) hm
        | cons y pre => exact ⟨pre, rest, (List.cons.inj heq).2, h⟩

theorem noNul_chars (s : CString) : NoNul s.chars := fun h => s.noNul NUL h rfl

/-- **The matcher is correct.** It returns 1 if and only if the text has a string of the pattern. -/
theorem match_iff_found (re text : CString) : matchText re.chars text.chars = true ↔ Found re.chars text.chars := by
  have hre := noNul_chars re
  have htext := noNul_chars text
  unfold matchText Found
  have hhat : deref re.chars = '^' ↔ re.chars.head? = some '^' := by
    cases re.chars with
    | nil => simp [deref, NUL]
    | cons c l => simp [deref]
  by_cases h : deref re.chars = '^'
  · rw [if_pos h, if_pos (hhat.mp h)]
    exact matcher_correct.1 _ _ hre.tail htext
  · rw [if_neg h, if_neg (mt hhat.mpr h)]
    exact matchFrom_found hre htext

end Xv6.Grep
