import Xv6.Shell.Strings

/-!
# What the shell runs (`runcmd` in `sh.c`)

A process is its table of descriptors. The events of processes that run next to each other come one after the
other, and waiting is left out. `Env` tells which calls of the kernel succeed.
-/

namespace Xv6.Shell

variable {α : Type}

/-- Where a command is in the line: `true` for the right one of two. -/
abbrev Pos := List Bool

/-- What a descriptor stands for. A pipe is known by its command. -/
inductive Obj (α : Type) where
  | inherited (fd : Nat)
  | file (name : α) (mode : Nat)
  | pipe (pos : Pos) (write : Bool)
  deriving DecidableEq

abbrev Ofile (α : Type) := List (Option (Obj α))

inductive Message (α : Type) where
  | execFailed (arg : α) | openFailed (file : α) | panicPipe | panicFork
  deriving DecidableEq

inductive Event (α : Type) where
  | exec (argv : List α) (ofile : Ofile α)
  | printf (dst : Option (Obj α)) (m : Message α)
  deriving DecidableEq

structure Env (α : Type) where
  exec : List α → Bool
  opens : α → Nat → Bool
  pipe : Pos → Bool
  fork : Pos → Bool

def fdalloc : Ofile α → Obj α → Option (Nat × Ofile α)
  | [], _ => none
  | none :: l, f => some (0, some f :: l)
  | some g :: l, f => (fdalloc l f).map fun r => (r.1 + 1, some g :: r.2)

def close (ofile : Ofile α) (fd : Nat) : Ofile α := ofile.set fd none

def dup (ofile : Ofile α) (fd : Nat) : Ofile α :=
  match (ofile.getD fd none).bind (fdalloc ofile) with
  | some r => r.2
  | none => ofile

def openFile (env : Env α) (ofile : Ofile α) (file : α) (mode : Nat) : Option (Ofile α) :=
  if env.opens file mode then (fdalloc ofile (.file file mode)).map (·.2) else none

def sysPipe (env : Env α) (pos : Pos) (ofile : Ofile α) : Option (Nat × Nat × Ofile α) :=
  if env.pipe pos then
    (fdalloc ofile (.pipe pos false)).bind fun r => (fdalloc r.2 (.pipe pos true)).map fun w => (r.1, w.1, w.2)
  else none

/-- `printf(2, ..)` -/
def complain (ofile : Ofile α) (m : Message α) : Event α := .printf (ofile.getD 2 none) m

def runcmd (env : Env α) (pos : Pos) : Tree α → Ofile α → List (Event α)
  | .exec [], _ => []
  | .exec (arg :: argv), ofile =>
    [if env.exec (arg :: argv) then .exec (arg :: argv) ofile else complain ofile (.execFailed arg)]
  | .redir cmd file mode fd, ofile =>
    match openFile env (close ofile fd) file mode with
    | none => [complain (close ofile fd) (.openFailed file)]
    | some ofile => runcmd env pos cmd ofile
  | .list left right, ofile =>
    if env.fork (pos ++ [false]) then
      runcmd env (pos ++ [false]) left ofile ++ runcmd env (pos ++ [true]) right ofile
    else [complain ofile .panicFork]
  | .pipe left right, ofile =>
    match sysPipe env pos ofile with
    | none => [complain ofile .panicPipe]
    | some (p0, p1, ofile) =>
      if env.fork (pos ++ [false]) then
        runcmd env (pos ++ [false]) left (close (close (dup (close ofile 1) p1) p0) p1) ++
          if env.fork (pos ++ [true]) then
            runcmd env (pos ++ [true]) right (close (close (dup (close ofile 0) p0) p0) p1)
          else [complain ofile .panicFork]
      else [complain ofile .panicFork]
  | .back cmd, ofile =>
    if env.fork (pos ++ [false]) then runcmd env (pos ++ [false]) cmd ofile else [complain ofile .panicFork]

/-- What a command line means: which programs are run, with their input and output, and what goes wrong. -/
inductive Deed (α : Type) where
  | run (argv : List α) (input output : Obj α)
  | fails (m : Message α)

def deeds (env : Env α) (pos : Pos) : Tree α → Obj α → Obj α → List (Deed α)
  | .exec [], _, _ => []
  | .exec (arg :: argv), i, o => [if env.exec (arg :: argv) then .run (arg :: argv) i o else .fails (.execFailed arg)]
  | .redir cmd file mode fd, i, o =>
    if env.opens file mode then
      if fd = 0 then deeds env pos cmd (.file file mode) o else deeds env pos cmd i (.file file mode)
    else [.fails (.openFailed file)]
  | .list left right, i, o =>
    if env.fork (pos ++ [false]) then deeds env (pos ++ [false]) left i o ++ deeds env (pos ++ [true]) right i o
    else [.fails .panicFork]
  | .pipe left right, i, o =>
    if env.pipe pos then
      if env.fork (pos ++ [false]) then
        deeds env (pos ++ [false]) left i (.pipe pos true) ++
          if env.fork (pos ++ [true]) then deeds env (pos ++ [true]) right (.pipe pos false) o else [.fails .panicFork]
      else [.fails .panicFork]
    else [.fails .panicPipe]
  | .back cmd, i, o => if env.fork (pos ++ [false]) then deeds env (pos ++ [false]) cmd i o else [.fails .panicFork]

/-- A process with input, output and error output, and no other descriptor. -/
def std (i o e : Obj α) : Ofile α := some i :: some o :: some e :: List.replicate (NOFILE - 3) none

def Deed.event (e : Obj α) : Deed α → Event α
  | .run argv i o => .exec argv (std i o e)
  | .fails m => .printf (some e) m

/-- Redirections are for input and output. -/
def Tree.Plain : Tree α → Prop
  | .exec _ => True
  | .redir cmd _ _ fd => fd ≤ 1 ∧ cmd.Plain
  | .pipe left right | .list left right => left.Plain ∧ right.Plain
  | .back cmd => cmd.Plain

theorem runcmd_std (env : Env α) (e : Obj α) {t : Tree α} (ht : t.Plain) (pos : Pos) (i o : Obj α) :
    runcmd env pos t (std i o e) = (deeds env pos t i o).map (Deed.event e) := by
  induction t generalizing pos i o with
  | exec argv =>
    cases argv with
    | nil => rfl
    | cons arg argv => rw [runcmd, deeds]; split_ifs <;> rfl
  | redir cmd file mode fd ih =>
    obtain ⟨hfd, ht⟩ := ht
    rw [runcmd, deeds, openFile]
    split_ifs with hopen h0
    · subst h0
      exact ih ht pos (.file file mode) o
    · obtain rfl : fd = 1 := by omega
      exact ih ht pos i (.file file mode)
    · -- descriptor 2 is still that of the shell
      obtain rfl | rfl : fd = 0 ∨ fd = 1 := by omega
      · rfl
      · rfl
  | list left right ihl ihr =>
    rw [runcmd, deeds]
    split_ifs
    · rw [ihl ht.1, ihr ht.2, List.map_append]
    · rfl
  | pipe left right ihl ihr =>
    -- `dup` finds the descriptor that was closed, so each side gets its end in place and loses the other two
    rw [runcmd, deeds, sysPipe]
    by_cases hp : env.pipe pos
    · rw [if_pos hp, if_pos hp]
      change (if env.fork (pos ++ [false]) then runcmd env (pos ++ [false]) left (std i (.pipe pos true) e) ++
        (if env.fork (pos ++ [true]) then runcmd env (pos ++ [true]) right (std (.pipe pos false) o e)
          else [.printf (some e) .panicFork]) else [.printf (some e) .panicFork]) = _
      rw [ihl ht.1, ihr ht.2]
      split_ifs
      · rw [List.map_append]
      · rw [List.map_append]; rfl
      · rfl
    · rw [if_neg hp, if_neg hp]; rfl
  | back cmd ih =>
    rw [runcmd, deeds]
    split_ifs
    · exact ih ht ..
    · rfl

theorem Redirs.plain_wrap (rs : Redirs α) {t : Tree α} (ht : t.Plain) : (rs.wrap t).Plain := by
  induction rs generalizing t with
  | nil => exact ht
  | cons r rs ih => exact ih (t := .redir t r.2 r.1.mode r.1.fd) ⟨by cases r.1 <;> decide, ht⟩

theorem Tree.plain_backs {t : Tree α} (ht : t.Plain) (n : Nat) : (t.backs n).Plain := by
  induction n generalizing t with
  | zero => exact ht
  | succ n ih => exact ih (t := t.back) ht

theorem Derives.plain {y : Sym} {ts : List (Tok α)} {t : Tree α} (h : Derives y ts t) : t.Plain := by
  induction h with
  | line p t n _ ih => exact Tree.plain_backs ih n
  | list p l t u n _ _ ihp ihl => exact ⟨Tree.plain_backs ihp n, ihl⟩
  | exec e t _ ih => exact ih
  | bar e p t u _ _ ihe ihp => exact ⟨ihe, ihp⟩
  | block l t rs _ ih => exact Redirs.plain_wrap rs ih
  | simple rs as _ => exact Redirs.plain_wrap _ trivial

/-- **From the characters of a line to programs with descriptors.** For every line that `parsecmd` accepts, `runcmd`
runs the programs of the line's tree with the input and output that pipes and redirections give them, each with no
descriptor but 0, 1 and 2, and messages go to the error output of the shell. -/
theorem runcmd_wires (x : Input) (n : Nat) (hn : 4 * x.buf.length + 4 ≤ n) (t : Tree Span) (buf : Nat → Char)
    (hp : parsecmd n x = .ok (t, buf)) (env : Env (List Char)) (i o e : Obj (List Char)) :
    Derives .line (lex [] x.buf) (t.map (text x)) ∧
      runcmd env [] (t.map (str x buf)) (std i o e) = (deeds env [] (t.map (text x)) i o).map (Deed.event e) := by
  obtain ⟨rfl, hwords, hderives⟩ := parsecmd_ok hp
  rw [map_words t fun w hw => str_terminate hwords hw]
  exact ⟨hderives hn, runcmd_std env e (hderives hn).plain [] i o⟩

theorem runcmd_wires_line : ∃ t buf, parsecmd 48 line = .ok (t, buf) ∧
    runcmd ⟨fun _ => true, fun _ _ => true, fun _ => true, fun _ => true⟩ [] (t.map (str line buf))
        (std (.inherited 0) (.inherited 1) (.inherited 2)) =
      [.exec [['a'], ['c']] (std (.inherited 0) (.file ['b'] (O_WRONLY ||| O_CREATE)) (.inherited 2)),
        .exec [['d']] (std (.pipe [false] false) (.inherited 1) (.inherited 2))] :=
  ⟨_, _, rfl, (runcmd_wires line 48 (by decide) _ _ rfl _ _ _ _).2⟩

end Xv6.Shell
