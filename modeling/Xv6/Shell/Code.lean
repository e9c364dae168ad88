import Xv6.Lib.Cmd
import Xv6.Param

/-!
# The parser of the shell (`sh.c`)

A pointer into the input is its index, and the cursor `*ps` is the state of a command. Memory does not
run out. The recursion and the loops have fuel, and `Fail.fuel` is not an outcome of the code.
-/

open Lib

namespace Xv6.Shell

open Cmd (get modify fail)

def MAXARGS : Nat := 10

/-- A string, without the NUL at its end. -/
structure Input where
  buf : List Char
  noNul : ∀ c ∈ buf, c ≠ '\x00'

namespace Input

/-- `s + strlen(s)` -/
def es (x : Input) : Nat := x.buf.length

/-- `*s` -/
def deref (x : Input) (s : Nat) : Char := x.buf.getD s '\x00'

end Input

def whitespace : List Char := [' ', '\t', '\x0d', '\n', '\x0b']

def symbols : List Char := ['<', '|', '>', '&', ';', '(', ')']

/-- `struct cmd`, with words of any kind. -/
inductive Tree (α : Type) where
  | exec (argv : List α)
  | redir (cmd : Tree α) (file : α) (mode fd : Nat)
  | pipe (left right : Tree α)
  | list (left right : Tree α)
  | back (cmd : Tree α)
  deriving DecidableEq, Repr

/-- A word from `q` to `eq`. -/
structure Span where
  q : Nat
  eq : Nat
  deriving DecidableEq, Repr

inductive Panic where
  | leftovers | missingFile | parseblock | missingParen | syntaxError | tooManyArgs
  deriving DecidableEq, Repr

inductive Fail where
  | panic (p : Panic)
  | fuel
  deriving DecidableEq, Repr

abbrev P := Cmd Nat Fail

/-! ## Tokens -/

/-- What `gettoken` returns: 0, the symbol itself, `'+'` for `>>`, or `'a'`. -/
inductive Ret where
  | eof | bar | lpar | rpar | semi | amp | lt | gt | gtgt | word
  deriving DecidableEq, Repr

/-- `while(s < es && p(*s)) s++` with `n = es - s`. -/
def scan (p : Char → Bool) (x : Input) : Nat → Nat → Nat
  | 0, s => s
  | n + 1, s => if p (x.deref s) then scan p x n (s + 1) else s

def skip (x : Input) (s : Nat) : Nat := scan (fun c => whitespace.contains c) x (x.es - s) s

def wordChar (c : Char) : Bool := !whitespace.contains c && !symbols.contains c

/-- The `switch` of `gettoken`, with the end of the token. -/
def token (x : Input) (s : Nat) : Ret × Nat :=
  match x.deref s with
  | '\x00' => (.eof, s)
  | '|' => (.bar, s + 1)
  | '(' => (.lpar, s + 1)
  | ')' => (.rpar, s + 1)
  | ';' => (.semi, s + 1)
  | '&' => (.amp, s + 1)
  | '<' => (.lt, s + 1)
  | '>' => if x.deref (s + 1) = '>' then (.gtgt, s + 2) else (.gt, s + 1)
  | _ => (.word, scan wordChar x (x.es - s) s)

def gettoken (x : Input) : P (Ret × Span) := do
  let s ← get
  let q := skip x s
  let t := token x q
  modify fun _ => skip x t.2
  pure (t.1, ⟨q, t.2⟩)

def peek (x : Input) (toks : List Char) : P Bool := do
  modify (skip x)
  let s ← get
  pure (decide (x.deref s ≠ '\x00') && toks.contains (x.deref s))

/-! ## Commands -/

/-- `>>` opens the file as `>` does. -/
def redir (tok : Ret) (cmd : Tree Span) (w : Span) : Tree Span :=
  match tok with
  | .lt => .redir cmd w O_RDONLY 0
  | .gt => .redir cmd w (O_WRONLY ||| O_CREATE) 1
  | .gtgt => .redir cmd w (O_WRONLY ||| O_CREATE) 1
  | _ => cmd

def parseredirs (x : Input) : Nat → Tree Span → P (Tree Span)
  | 0, _ => fail .fuel
  | n + 1, cmd => do
    if ← peek x ['<', '>'] then
      let tok ← gettoken x
      let file ← gettoken x
      if file.1 = .word then parseredirs x n (redir tok.1 cmd file.2)
      else fail (.panic .missingFile)
    else pure cmd

/-- `cmd->argv[argc] = q`, where `cmd` is the `EXEC` under the redirections of `ret`. -/
def Tree.addArg {α : Type} (w : α) : Tree α → Tree α
  | .exec argv => .exec (argv ++ [w])
  | .redir cmd file mode fd => .redir (cmd.addArg w) file mode fd
  | t => t

/-- The loop of `parseexec`. -/
def parseargs (x : Input) : Nat → Nat → Tree Span → P (Tree Span)
  | 0, _, _ => fail .fuel
  | n + 1, argc, ret => do
    if ← peek x ['|', ')', '&', ';'] then pure ret
    else
      let tok ← gettoken x
      if tok.1 = .eof then pure ret
      else if tok.1 ≠ .word then fail (.panic .syntaxError)
      else if argc + 1 ≥ MAXARGS then fail (.panic .tooManyArgs)
      else
        let ret ← parseredirs x n (ret.addArg tok.2)
        parseargs x n (argc + 1) ret

/-- The loop of `parseline`. -/
def parsebacks (x : Input) : Nat → Tree Span → P (Tree Span)
  | 0, _ => fail .fuel
  | n + 1, cmd => do
    if ← peek x ['&'] then
      let _ ← gettoken x
      parsebacks x n (.back cmd)
    else pure cmd

mutual

def parseline (x : Input) : Nat → P (Tree Span)
  | 0 => fail .fuel
  | n + 1 => do
    let cmd ← parsepipe x n
    let cmd ← parsebacks x n cmd
    if ← peek x [';'] then
      let _ ← gettoken x
      let right ← parseline x n
      pure (.list cmd right)
    else pure cmd

def parsepipe (x : Input) : Nat → P (Tree Span)
  | 0 => fail .fuel
  | n + 1 => do
    let cmd ← parseexec x n
    if ← peek x ['|'] then
      let _ ← gettoken x
      let right ← parsepipe x n
      pure (.pipe cmd right)
    else pure cmd

def parseblock (x : Input) : Nat → P (Tree Span)
  | 0 => fail .fuel
  | n + 1 => do
    if ← peek x ['('] then
      let _ ← gettoken x
      let cmd ← parseline x n
      if ← peek x [')'] then
        let _ ← gettoken x
        parseredirs x n cmd
      else fail (.panic .missingParen)
    else fail (.panic .parseblock)

def parseexec (x : Input) : Nat → P (Tree Span)
  | 0 => fail .fuel
  | n + 1 => do
    if ← peek x ['('] then parseblock x n
    else
      let ret ← parseredirs x n (.exec [])
      parseargs x n 0 ret

end

/-- Writes NUL behind every word. -/
def nulterminate (buf : Nat → Char) : Tree Span → Nat → Char
  | .exec argv => argv.foldl (fun buf w => Function.update buf w.eq '\x00') buf
  | .redir cmd file _ _ => Function.update (nulterminate buf cmd) file.eq '\x00'
  | .pipe left right => nulterminate (nulterminate buf left) right
  | .list left right => nulterminate (nulterminate buf left) right
  | .back cmd => nulterminate buf cmd

/-- `parsecmd` up to `nulterminate`. -/
def parsewhole (x : Input) (n : Nat) : P (Tree Span) := do
  let cmd ← parseline x n
  let _ ← peek x []
  let s ← get
  if s ≠ x.es then fail (.panic .leftovers) else pure cmd

/-- The tree and the buffer that it points into. -/
def parsecmd (n : Nat) (x : Input) : Except Fail (Tree Span × (Nat → Char)) :=
  (parsewhole x n 0).1.map fun cmd => (cmd, nulterminate x.deref cmd)

end Xv6.Shell
