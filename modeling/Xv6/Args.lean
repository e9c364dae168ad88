import Mathlib.Tactic.Common
import Xv6.Lib.Bytes
import Xv6.Param

/-!
# Arguments of system calls (`syscall.c`, `sysfile.c`)

Arguments are on the stack of the process, and pointers and sizes are whatever it has put there. Words are of 32 bits,
so sums of them may wrap around.
-/

open Lib

namespace Xv6.Args

abbrev Word := BitVec 32

/-- A process in a system call: `tf->esp` and what is in its memory. -/
structure Process where
  sz : Word
  esp : Word
  mem : Word → Byte
  small : sz.toNat ≤ KERNBASE

/-! ## `syscall.c` -/

def word (mem : Word → Byte) (addr : Word) : Word := mem (addr + 3) ++ mem (addr + 2) ++ mem (addr + 1) ++ mem addr

def fetchint (p : Process) (addr : Word) : Option Word :=
  if p.sz ≤ addr ∨ p.sz < addr + 4 then none else some (word p.mem addr)

/-- The loop of `fetchstr`, with `n` bytes left up to `ep`. -/
def nulFrom (mem : Word → Byte) (pp : Word) : Nat → Word → Option Nat
  | 0, _ => none
  | n + 1, s => if mem s = 0 then some (s - pp).toNat else nulFrom mem pp n (s + 1)

/-- The length of the string. -/
def fetchstr (p : Process) (addr : Word) : Option Nat :=
  if p.sz ≤ addr then none else nulFrom p.mem addr (p.sz - addr).toNat addr

def argint (p : Process) (n : Word) : Option Word := fetchint p (p.esp + 4 + 4 * n)

/-- `size` is an `int`. -/
def argptr (p : Process) (n size : Word) : Option Word :=
  (argint p n).bind fun i => if size.toInt < 0 ∨ p.sz ≤ i ∨ p.sz < i + size then none else some i

def argstr (p : Process) (n : Word) : Option (Word × Nat) :=
  (argint p n).bind fun addr => (fetchstr p addr).map fun len => (addr, len)

/-! ## `sys_exec` -/

/-- The loop over `argv`, whose word `i` comes next and of which `n` may still be used. -/
def argvFrom (p : Process) (uargv : Word) : Nat → Word → Option (List (Word × Nat))
  | 0, _ => none
  | n + 1, i =>
    (fetchint p (uargv + 4 * i)).bind fun uarg =>
      if uarg = 0 then some []
      else (fetchstr p uarg).bind fun len => (argvFrom p uargv n (i + 1)).map fun argv => (uarg, len) :: argv

/-- What `sys_exec` gives to `exec`: the path and the strings, with their lengths. -/
def sys_exec (p : Process) : Option ((Word × Nat) × List (Word × Nat)) :=
  (argstr p 0).bind fun path => (argint p 1).bind fun uargv => (argvFrom p uargv MAXARG 0).map fun argv => (path, argv)

/-! ## Addresses -/

/-- The `n` bytes at `a` are below `sz`, as natural numbers. -/
def Process.Within (p : Process) (a : Word) (n : Nat) : Prop := a.toNat + n ≤ p.sz.toNat

/-- A string with its NUL. -/
structure Process.IsString (p : Process) (a : Word) (len : Nat) : Prop where
  within : p.Within a (len + 1)
  nul : p.mem (a + BitVec.ofNat 32 len) = 0
  text : ∀ k < len, p.mem (a + BitVec.ofNat 32 k) ≠ 0

variable {p : Process} {addr : Word}

theorem fetchint_within {w : Word} (h : fetchint p addr = some w) : p.Within addr 4 := by
  unfold fetchint at h
  split_ifs at h with hbad
  have hsmall := p.small
  unfold KERNBASE at hsmall
  unfold Process.Within
  rw [not_or, BitVec.not_le, BitVec.not_lt] at hbad
  obtain ⟨hlt, hle⟩ := hbad
  bv_omega

theorem nulFrom_string {n k len : Nat} (hn : addr.toNat + k + n < 2 ^ 32)
    (hk : ∀ j < k, p.mem (addr + BitVec.ofNat 32 j) ≠ 0)
    (h : nulFrom p.mem addr n (addr + BitVec.ofNat 32 k) = some len) :
    len < k + n ∧ p.mem (addr + BitVec.ofNat 32 len) = 0 ∧ ∀ j < len, p.mem (addr + BitVec.ofNat 32 j) ≠ 0 := by
  induction n generalizing k with
  | zero => cases h
  | succ n ih =>
    rw [nulFrom] at h
    split_ifs at h with hnul
    · have hlen : len = k := by
        rw [← Option.some.inj h]
        bv_omega
      rw [hlen]
      exact ⟨by omega, hnul, hk⟩
    · have hnext : addr + BitVec.ofNat 32 k + 1 = addr + BitVec.ofNat 32 (k + 1) := by bv_omega
      rw [hnext] at h
      have hk' : ∀ j < k + 1, p.mem (addr + BitVec.ofNat 32 j) ≠ 0 := by
        intro j hj
        rcases Nat.lt_succ_iff_lt_or_eq.mp hj with hj | rfl
        · exact hk j hj
        · exact hnul
      obtain ⟨hlt, hrest⟩ := ih (by omega) hk' h
      exact ⟨by omega, hrest⟩

theorem fetchstr_string {len : Nat} (h : fetchstr p addr = some len) : p.IsString addr len := by
  unfold fetchstr at h
  split_ifs at h with hbad
  rw [BitVec.not_le] at hbad
  have hsmall := p.small
  unfold KERNBASE at hsmall
  have hleft : (p.sz - addr).toNat = p.sz.toNat - addr.toNat := by bv_omega
  have hstart : nulFrom p.mem addr (p.sz.toNat - addr.toNat) (addr + BitVec.ofNat 32 0) = some len := by
    rw [BitVec.add_zero, ← hleft]
    exact h
  obtain ⟨hlt, hnul, htext⟩ := nulFrom_string (by omega) (fun j hj => absurd hj (Nat.not_lt_zero j)) hstart
  refine ⟨?_, hnul, htext⟩
  unfold Process.Within
  omega

theorem argstr_string {n a : Word} {len : Nat} (h : argstr p n = some (a, len)) :
    argint p n = some a ∧ p.IsString a len := by
  obtain ⟨addr, haddr, h⟩ := Option.bind_eq_some_iff.mp h
  obtain ⟨len', hlen, heq⟩ := Option.map_eq_some_iff.mp h
  obtain ⟨rfl, rfl⟩ := Prod.mk.inj heq
  exact ⟨haddr, fetchstr_string hlen⟩

theorem argptr_none_iff {n size i : Word} (hi : argint p n = some i) :
    argptr p n size = none ↔ size.toInt < 0 ∨ p.sz.toNat ≤ i.toNat ∨ (p.sz.toNat : Int) < i.toNat + size.toInt := by
  have hsmall := p.small
  unfold KERNBASE at hsmall
  have htest : (size.toInt < 0 ∨ p.sz ≤ i ∨ p.sz < i + size) ↔
      (size.toInt < 0 ∨ p.sz.toNat ≤ i.toNat ∨ (p.sz.toNat : Int) < i.toNat + size.toInt) := by
    rw [BitVec.le_def, BitVec.lt_def, BitVec.toNat_add, BitVec.toInt_eq_toNat_cond]
    have hi := i.isLt
    split_ifs <;> omega
  unfold argptr
  rw [hi, Option.bind_some, ← htest]
  split_ifs with h
  · exact iff_of_true rfl h
  · simp [h]

theorem argptr_within {n size i : Word} (h : argptr p n size = some i) :
    0 ≤ size.toInt ∧ i.toNat < p.sz.toNat ∧ p.Within i size.toNat := by
  obtain ⟨i', hi, h'⟩ := Option.bind_eq_some_iff.mp h
  have hii : i' = i := by
    split_ifs at h'
    exact Option.some.inj h'
  subst hii
  have hgood := mt (argptr_none_iff hi).mpr (h ▸ Option.some_ne_none i')
  rw [not_or, not_or] at hgood
  obtain ⟨hpos, hlt, hle⟩ := hgood
  unfold Process.Within
  rw [BitVec.toInt_eq_toNat_cond] at hpos hle ⊢
  split_ifs at hpos hle ⊢ <;> omega

theorem argvFrom_within {uargv i : Word} {n : Nat} {argv : List (Word × Nat)} (h : argvFrom p uargv n i = some argv) :
    (∀ j ≤ argv.length, p.Within (uargv + 4 * (i + BitVec.ofNat 32 j)) 4) ∧ ∀ a ∈ argv, p.IsString a.1 a.2 := by
  induction n generalizing i argv with
  | zero => cases h
  | succ n ih =>
    obtain ⟨uarg, hword, h⟩ := Option.bind_eq_some_iff.mp h
    have hfirst : p.Within (uargv + 4 * (i + BitVec.ofNat 32 0)) 4 := by
      rw [BitVec.add_zero]
      exact fetchint_within hword
    split_ifs at h with hend
    · obtain rfl := Option.some.inj h
      refine ⟨fun j hj => ?_, nofun⟩
      obtain rfl := Nat.le_zero.mp hj
      exact hfirst
    · obtain ⟨len, hlen, h⟩ := Option.bind_eq_some_iff.mp h
      obtain ⟨rest, hrest, rfl⟩ := Option.map_eq_some_iff.mp h
      obtain ⟨hwords, hstrings⟩ := ih hrest
      constructor
      · intro j hj
        cases j with
        | zero => exact hfirst
        | succ j =>
          have hnext : i + BitVec.ofNat 32 (j + 1) = i + 1 + BitVec.ofNat 32 j := by bv_omega
          rw [hnext]
          exact hwords j (Nat.le_of_succ_le_succ hj)
      · intro a ha
        rcases List.mem_cons.mp ha with rfl | ha
        · exact fetchstr_string hlen
        · exact hstrings a ha

/-- **Arguments stay inside the process.** -/
theorem arguments_within (p : Process) :
    (∀ addr w, fetchint p addr = some w → p.Within addr 4) ∧
    (∀ n w, argint p n = some w → p.Within (p.esp + 4 + 4 * n) 4) ∧
    (∀ n size i, argptr p n size = some i → 0 ≤ size.toInt ∧ p.Within i size.toNat) ∧
    (∀ addr len, fetchstr p addr = some len → p.IsString addr len) ∧
    (∀ n a len, argstr p n = some (a, len) → p.IsString a len) ∧
    (∀ n size i, argint p n = some i →
      (argptr p n size = none ↔ size.toInt < 0 ∨ p.sz.toNat ≤ i.toNat ∨ (p.sz.toNat : Int) < i.toNat + size.toInt)) ∧
    ∀ path argv, sys_exec p = some (path, argv) → p.IsString path.1 path.2 ∧
      (∃ uargv, argint p 1 = some uargv ∧ ∀ j ≤ argv.length, p.Within (uargv + 4 * BitVec.ofNat 32 j) 4) ∧
      ∀ a ∈ argv, p.IsString a.1 a.2 := by
  refine ⟨fun _ _ => fetchint_within, fun _ _ => fetchint_within, fun n size i h => ?_, fun _ _ => fetchstr_string,
    fun _ _ _ h => (argstr_string h).2, fun _ _ _ => argptr_none_iff, fun path argv h => ?_⟩
  · obtain ⟨hpos, -, hwithin⟩ := argptr_within h
    exact ⟨hpos, hwithin⟩
  · obtain ⟨path', hpath, h⟩ := Option.bind_eq_some_iff.mp h
    obtain ⟨uargv, huargv, h⟩ := Option.bind_eq_some_iff.mp h
    obtain ⟨argv', hargv, heq⟩ := Option.map_eq_some_iff.mp h
    obtain ⟨rfl, rfl⟩ := Prod.mk.inj heq
    obtain ⟨hwords, hstrings⟩ := argvFrom_within hargv
    refine ⟨(argstr_string hpath).2, ⟨uargv, huargv, fun j hj => ?_⟩, hstrings⟩
    have hzero : (0 : Word) + BitVec.ofNat 32 j = BitVec.ofNat 32 j := BitVec.zero_add _
    rw [← hzero]
    exact hwords j hj

/-- A call `exec("a", argv)`, with `argv[0]` the same string. -/
def execA : Process where
  sz := 0x1000
  esp := 0x100
  mem := fun a => if a = 0x105 then 2 else if a = 0x109 then 3 else if a = 0x301 then 2 else if a = 0x200 then 97 else 0
  small := by decide

theorem arguments_within_exec : sys_exec execA = some ((0x200, 1), [(0x200, 1)]) ∧ execA.IsString 0x200 1 := by
  have h : sys_exec execA = some ((0x200, 1), [(0x200, 1)]) := by decide +kernel
  exact ⟨h, ((arguments_within execA).2.2.2.2.2.2 _ _ h).1⟩

end Xv6.Args
