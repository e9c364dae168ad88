import Xv6.Shell.Code

/-!
# The grammar of command lines

`lex` splits a line into tokens, and `Derives` says which token sequences the grammar has and the tree
of each. Nothing here is about the functions of `sh.c`.
-/

namespace Xv6.Shell

variable {α β : Type}

/-- `<`, `>` and `>>`. -/
inductive Dir where
  | input | output | append
  deriving DecidableEq, Repr

def Dir.mode : Dir → Nat
  | input => O_RDONLY
  | output | append => O_WRONLY ||| O_CREATE

def Dir.fd : Dir → Nat
  | input => 0
  | output | append => 1

inductive Tok (α : Type) where
  | bar | lpar | rpar | semi | amp
  | dir (d : Dir)
  | word (w : α)
  deriving DecidableEq, Repr

/-- `>>` is left to `lex`. -/
def operator : Char → Option (Tok α)
  | '|' => some .bar
  | '(' => some .lpar
  | ')' => some .rpar
  | ';' => some .semi
  | '&' => some .amp
  | '<' => some (.dir .input)
  | '>' => some (.dir .output)
  | _ => none

/-- The word that ends here, if there is one, and then `ts`. -/
def flush (w : List Char) (ts : List (Tok (List Char))) : List (Tok (List Char)) := if w = [] then ts else .word w :: ts

def lex (w : List Char) : List Char → List (Tok (List Char))
  | [] => flush w []
  | '>' :: '>' :: l => flush w (.dir .append :: lex [] l)
  | c :: l =>
    if whitespace.contains c then flush w (lex [] l)
    else
      match operator c with
      | some t => flush w (t :: lex [] l)
      | none => lex (w ++ [c]) l

/-- `redir*` -/
abbrev Redirs (α : Type) := List (Dir × α)

namespace Redirs

def toks (rs : Redirs α) : List (Tok α) := rs.flatMap fun r => [.dir r.1, .word r.2]

/-- The first redirection is the innermost. -/
def wrap (rs : Redirs α) (t : Tree α) : Tree α := rs.foldl (fun t r => .redir t r.2 r.1.mode r.1.fd) t

end Redirs

/-- `(word redir*)*` -/
abbrev Args (α : Type) := List (α × Redirs α)

namespace Args

def toks (as : Args α) : List (Tok α) := as.flatMap fun a => .word a.1 :: Redirs.toks a.2

def words (as : Args α) : List α := as.map (·.1)

def redirs (as : Args α) : Redirs α := as.flatMap (·.2)

end Args

def Tree.backs (t : Tree α) : Nat → Tree α
  | 0 => t
  | n + 1 => t.back.backs n

inductive Sym where
  | line | pipe | exec

/-- The symbol derives the tokens, with this tree. -/
inductive Derives : Sym → List (Tok α) → Tree α → Prop where
  | line (p : List (Tok α)) (t : Tree α) (n : Nat) (hp : Derives .pipe p t) :
      Derives .line (p ++ List.replicate n .amp) (t.backs n)
  | list (p l : List (Tok α)) (t u : Tree α) (n : Nat) (hp : Derives .pipe p t) (hl : Derives .line l u) :
      Derives .line (p ++ List.replicate n .amp ++ .semi :: l) (.list (t.backs n) u)
  | exec (e : List (Tok α)) (t : Tree α) (he : Derives .exec e t) : Derives .pipe e t
  | bar (e p : List (Tok α)) (t u : Tree α) (he : Derives .exec e t) (hp : Derives .pipe p u) :
      Derives .pipe (e ++ .bar :: p) (.pipe t u)
  | block (l : List (Tok α)) (t : Tree α) (rs : Redirs α) (hl : Derives .line l t) :
      Derives .exec (.lpar :: l ++ .rpar :: rs.toks) (rs.wrap t)
  | simple (rs : Redirs α) (as : Args α) (h : as.words.length < MAXARGS) :
      Derives .exec (rs.toks ++ as.toks) ((rs ++ as.redirs).wrap (.exec as.words))

def Tree.map (f : α → β) : Tree α → Tree β
  | .exec argv => .exec (argv.map f)
  | .redir cmd file mode fd => .redir (cmd.map f) (f file) mode fd
  | .pipe left right => .pipe (left.map f) (right.map f)
  | .list left right => .list (left.map f) (right.map f)
  | .back cmd => .back (cmd.map f)

theorem Tree.map_addArg (f : α → β) (w : α) (t : Tree α) : (t.addArg w).map f = (t.map f).addArg (f w) := by
  induction t with
  | exec argv => simp [Tree.addArg, Tree.map]
  | redir cmd file mode fd ih => simp [Tree.addArg, Tree.map, ih]
  | pipe | list | back => rfl

theorem Redirs.wrap_addArg (rs : Redirs α) (t : Tree α) (w : α) : (rs.wrap t).addArg w = rs.wrap (t.addArg w) := by
  induction rs generalizing t with
  | nil => rfl
  | cons r rs ih => exact ih (.redir t r.2 r.1.mode r.1.fd)

theorem Redirs.wrap_append (rs rs' : Redirs α) (t : Tree α) : (rs ++ rs').wrap t = rs'.wrap (rs.wrap t) := by
  simp [Redirs.wrap, List.foldl_append]

/-- The token that may come behind a phrase, `none` for the end. -/
def Sym.follow : Sym → Option (Tok α) → Bool
  | _, none | _, some .rpar => true
  | .pipe, some .amp | .pipe, some .semi => true
  | .exec, some .amp | .exec, some .semi | .exec, some .bar => true
  | _, _ => false

end Xv6.Shell
