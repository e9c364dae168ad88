import Mathlib.Data.List.Basic
import Xv6.Lib.Bytes

/-!
# The multiprocessor table (`mp.c`)

`mpinit` walks through the entries of the table. An entry of unknown kind does not move the cursor, so the walk ends
only if there is none.
-/

open Lib

namespace Xv6.Mp

/-! ## The table -/

abbrev Table := Nat → Byte

def NCPU : Nat := 8

def length (conf : Table) : Nat := leVal (fun i => conf (4 + i)) 2

def sum (conf : Table) (len : Nat) : Byte := (List.range len).foldl (fun acc i => acc + conf i) 0

def mpconfig (conf : Table) : Bool :=
  (List.range 4).map conf = [0x50, 0x43, 0x4d, 0x50] && (conf 6 = 1 || conf 6 = 4) && sum conf (length conf) = 0

inductive Kind where
  | MPPROC
  | MPBUS
  | MPIOAPIC
  | MPIOINTR
  | MPLINTR
  deriving DecidableEq, Repr

def kind (b : Byte) : Option Kind :=
  if b = 0 then some .MPPROC
  else if b = 1 then some .MPBUS
  else if b = 2 then some .MPIOAPIC
  else if b = 3 then some .MPIOINTR
  else if b = 4 then some .MPLINTR
  else none

/-! ## `mpinit` -/

/-- `cpus` are the fields `apicid` of the first `ncpu` processors. -/
structure State where
  cpus : List Byte
  ioapicid : Byte
  ismp : Bool
  deriving DecidableEq, Repr

def body (conf : Table) (p : Nat) (s : State) : Nat × State :=
  match kind (conf p) with
  | some .MPPROC => (p + 20, if s.cpus.length < NCPU then { s with cpus := s.cpus ++ [conf (p + 1)] } else s)
  | some .MPIOAPIC => (p + 8, { s with ioapicid := conf (p + 1) })
  | some .MPBUS => (p + 8, s)
  | some .MPIOINTR => (p + 8, s)
  | some .MPLINTR => (p + 8, s)
  | none => (p, { s with ismp := false })

def scan (conf : Table) (e : Nat) : Nat → Nat → State → Option State
  | 0, _, _ => none
  | n + 1, p, s => if p < e then scan conf e n (body conf p s).1 (body conf p s).2 else some s

inductive Outcome where
  | expectSmp
  | notSuitable
  | found (s : State)
  deriving DecidableEq, Repr

/-- The header has 44 bytes. -/
def mpinit (conf : Table) (n : Nat) : Option Outcome :=
  if mpconfig conf then
    (scan conf (length conf) n 44 ⟨[], 0, true⟩).map fun s => if s.ismp then .found s else .notSuitable
  else some .expectSmp

/-! ## The entries -/

def Kind.size : Kind → Nat
  | .MPPROC => 20
  | _ => 8

inductive Entries (conf : Table) (e : Nat) : Nat → List Nat → Prop
  | done {p : Nat} : e ≤ p → Entries conf e p []
  | next {p : Nat} {k : Kind} {l : List Nat} : p < e → kind (conf p) = some k → Entries conf e (p + k.size) l →
      Entries conf e p (p :: l)

inductive Unknown (conf : Table) (e : Nat) : Nat → Prop
  | here {p : Nat} : p < e → kind (conf p) = none → Unknown conf e p
  | later {p : Nat} {k : Kind} : p < e → kind (conf p) = some k → Unknown conf e (p + k.size) → Unknown conf e p

def apicids (conf : Table) (l : List Nat) : List Byte :=
  (l.filter fun p => kind (conf p) = some .MPPROC).map fun p => conf (p + 1)

def Suits (conf : Table) (r : Outcome) : Prop :=
  (Unknown conf (length conf) 44 → r = .notSuitable) ∧
  ∀ l, Entries conf (length conf) 44 l → ∃ s, r = .found s ∧ s.cpus = (apicids conf l).take NCPU

variable {conf : Table} {e p n : Nat} {s : State} {k : Kind}

theorem Kind.size_pos (k : Kind) : 0 < k.size := by cases k <;> decide

theorem Entries.not_unknown {l : List Nat} (h : Entries conf e p l) : ¬ Unknown conf e p := by
  induction h with
  | done hle =>
    intro h
    cases h with
    | here hlt _ => omega
    | later hlt _ _ => omega
  | next hlt hk _ ih =>
    intro h
    cases h with
    | here _ hnone => simp [hk] at hnone
    | later _ hk' hlater =>
      obtain rfl := Option.some.inj (hk.symm.trans hk')
      exact ih hlater

theorem Entries.unique {l l' : List Nat} (h : Entries conf e p l) (h' : Entries conf e p l') : l = l' := by
  induction h generalizing l' with
  | done hle =>
    cases h' with
    | done _ => rfl
    | next hlt _ _ => omega
  | next hlt hk _ ih =>
    cases h' with
    | done hle => omega
    | next _ hk' hl' =>
      obtain rfl := Option.some.inj (hk.symm.trans hk')
      rw [ih hl']

theorem entries_or_unknown (conf : Table) (e p : Nat) : (∃ l, Entries conf e p l) ∨ Unknown conf e p := by
  induction hn : e - p using Nat.strong_induction_on generalizing p with
  | _ n ih =>
    by_cases hlt : p < e
    · rcases hk : kind (conf p) with _ | k
      · exact .inr (.here hlt hk)
      · have hpos := k.size_pos
        rcases ih (e - (p + k.size)) (by omega) (p + k.size) rfl with ⟨l, hl⟩ | hu
        · exact .inl ⟨p :: l, .next hlt hk hl⟩
        · exact .inr (.later hlt hk hu)
    · exact .inl ⟨[], .done (Nat.not_lt.mp hlt)⟩

/-! ## The scan -/

theorem body_fst (hk : kind (conf p) = some k) : (body conf p s).1 = p + k.size := by
  unfold body
  rw [hk]
  cases k <;> rfl

theorem body_none (hk : kind (conf p) = none) : body conf p s = (p, { s with ismp := false }) := by
  unfold body
  rw [hk]

theorem scan_unknown (h : Unknown conf e p) (n : Nat) (s : State) : scan conf e n p s = none := by
  induction n generalizing p s with
  | zero => rfl
  | succ n ih =>
    cases h with
    | here hlt hk =>
      rw [scan, if_pos hlt, body_none hk]
      exact ih (.here hlt hk) _
    | later hlt hk hu =>
      rw [scan, if_pos hlt, body_fst hk]
      exact ih hu _

theorem apicids_cons (l : List Nat) : apicids conf (p :: l) =
    if kind (conf p) = some .MPPROC then conf (p + 1) :: apicids conf l else apicids conf l := by
  unfold apicids
  rw [List.filter_cons]
  split_ifs <;> simp_all

theorem body_cpus (l : List Nat) (hk : kind (conf p) = some k) (hs : s.cpus.length ≤ NCPU) :
    (body conf p s).2.cpus.length ≤ NCPU ∧
      ((body conf p s).2.cpus ++ apicids conf l).take NCPU = (s.cpus ++ apicids conf (p :: l)).take NCPU := by
  rw [apicids_cons, body, hk]
  cases k with
  | MPPROC =>
    rw [if_pos rfl]
    split_ifs with hlt
    · refine ⟨?_, by rw [List.append_assoc, List.singleton_append]⟩
      rw [List.length_append, List.length_singleton]
      exact hlt
    · have hfull : s.cpus.length = NCPU := le_antisymm hs (Nat.not_lt.mp hlt)
      exact ⟨hs, by rw [List.take_left' hfull, List.take_left' hfull]⟩
  | MPIOAPIC => exact ⟨hs, rfl⟩
  | MPBUS => exact ⟨hs, rfl⟩
  | MPIOINTR => exact ⟨hs, rfl⟩
  | MPLINTR => exact ⟨hs, rfl⟩

theorem body_ismp (hk : kind (conf p) = some k) : (body conf p s).2.ismp = s.ismp := by
  rw [body, hk]
  cases k with
  | MPPROC =>
    split_ifs <;> rfl
  | _ => rfl

theorem scan_entries {l : List Nat} (h : Entries conf e p l) (s : State) (hs : s.cpus.length ≤ NCPU) :
    ∃ n s', scan conf e n p s = some s' ∧ s'.ismp = s.ismp ∧ s'.cpus = (s.cpus ++ apicids conf l).take NCPU := by
  induction h generalizing s with
  | done hle =>
    refine ⟨1, s, ?_, rfl, ?_⟩
    · rw [scan, if_neg (Nat.not_lt.mpr hle)]
    · rw [show apicids conf [] = [] from rfl, List.append_nil, List.take_of_length_le hs]
  | next hlt hk _ ih =>
    rename_i l _
    obtain ⟨hlen, htake⟩ := body_cpus l hk hs
    obtain ⟨n, s', hscan, hismp, hcpus⟩ := ih _ hlen
    refine ⟨n + 1, s', ?_, hismp.trans (body_ismp hk), hcpus.trans htake⟩
    rw [scan, if_pos hlt, body_fst hk]
    exact hscan

/-- **The scan ends and finds the processors** if and only if each entry is of a known kind. -/
theorem mpinit_suits_iff (h : mpconfig conf = true) :
    (∃ n r, mpinit conf n = some r ∧ Suits conf r) ↔ ∃ l, Entries conf (length conf) 44 l := by
  have hrun : ∀ n, mpinit conf n =
      (scan conf (length conf) n 44 ⟨[], 0, true⟩).map fun s => if s.ismp then .found s else .notSuitable :=
      fun _ => if_pos h
  simp only [hrun]
  constructor
  · rintro ⟨n, r, hrun, -⟩
    refine (entries_or_unknown conf (length conf) 44).resolve_right fun hu => ?_
    rw [scan_unknown hu] at hrun
    cases hrun
  · rintro ⟨l, hl⟩
    obtain ⟨n, s, hscan, hismp, hcpus⟩ := scan_entries hl ⟨[], 0, true⟩ (Nat.zero_le _)
    refine ⟨n, .found s, ?_, fun hu => absurd hu hl.not_unknown, fun l' hl' => ⟨s, rfl, ?_⟩⟩
    · rw [hscan, Option.map_some, if_pos hismp]
    · rw [hcpus, hl'.unique hl]
      rfl

def twoCpus : Table := fun i =>
  [0x50, 0x43, 0x4d, 0x50, 92, 0, 4, 107].getD i (if i = 65 then 1 else if i = 84 then 2 else if i = 85 then 2 else 0)

theorem mpinit_suits_iff_two : mpconfig twoCpus = true ∧ ∃ n r, mpinit twoCpus n = some r ∧ Suits twoCpus r := by
  have h : mpconfig twoCpus = true := by decide +kernel
  have hentries : Entries twoCpus 92 44 [44, 64, 84] :=
    .next (k := .MPPROC) (by decide) (by decide) (.next (k := .MPPROC) (by decide) (by decide)
      (.next (k := .MPIOAPIC) (by decide) (by decide) (.done (by decide))))
  exact ⟨h, (mpinit_suits_iff h).mpr ⟨_, hentries⟩⟩

def badEntry : Table := fun i => [0x50, 0x43, 0x4d, 0x50, 45, 0, 4, 154].getD i (if i = 44 then 5 else 0)

theorem mpinit_never_ends : mpconfig badEntry = true ∧ ∀ n, mpinit badEntry n = none := by
  have h : mpconfig badEntry = true := by decide +kernel
  have hu : Unknown badEntry (length badEntry) 44 := .here (by decide) (by decide)
  refine ⟨h, fun n => ?_⟩
  rw [mpinit, if_pos h, scan_unknown hu, Option.map_none]

end Xv6.Mp
