import Xv6.Param

/-! # The language of the shell

The tokens of a command line, the grammar over them, and the command that a
derivation stands for.
-/

namespace Xv6.Shell

/-- A string of bytes. -/
abbrev Str := List UInt8

/-- The value of a character constant. -/
def chr (c : Char) : UInt8 := c.toUInt8

def whitespace : Str := [chr ' ', chr '\t', chr '\r', chr '\n', chr '\x0b']

def symbols : Str := [chr '<', chr '|', chr '>', chr '&', chr ';', chr '(', chr ')']

/-- A character of a word. -/
def isWord (c : UInt8) : Bool := !whitespace.contains c && !symbols.contains c

/-- The tokens that are not words; `app` is `>>`. -/
inductive Op
  | pipe
  | lpar
  | rpar
  | semi
  | amp
  | lt
  | gt
  | app
  deriving DecidableEq, Repr

/-- The tokens of one character, apart from `>`. -/
def single (c : UInt8) : Option Op :=
  if c = chr '|' then some .pipe
  else if c = chr '(' then some .lpar
  else if c = chr ')' then some .rpar
  else if c = chr ';' then some .semi
  else if c = chr '&' then some .amp
  else if c = chr '<' then some .lt
  else none

inductive Tok
  | op (o : Op)
  | word (w : Str)
  deriving DecidableEq, Repr

/-- Put a character in front of the first token, which it continues. -/
def glue (c : UInt8) : List Tok → List Tok
  | .word w :: ts => .word (c :: w) :: ts
  | ts => .word [c] :: ts

/-- The tokens that begin with `c`, if `next` comes after it and `ts` are the tokens from there. -/
def front (c : UInt8) (next : Option UInt8) (ts : List Tok) : List Tok :=
  if whitespace.contains c then ts
  else
    match single c with
    | some o => .op o :: ts
    | none =>
      if c = chr '>' then .op .gt :: ts
      else if next.any isWord then glue c ts
      else .word [c] :: ts

/-- The tokens of a line. Words are as long as possible, and `>>` is one token. -/
def tokens : Str → List Tok
  | [] => []
  | [c] => front c none []
  | c :: d :: s =>
    if c = chr '>' ∧ d = chr '>' then .op .app :: tokens s else front c (some d) (tokens (d :: s))

/-- A command. The names of programs, arguments and files are of type `α`. -/
inductive Cmd (α : Type)
  | exec (argv : List α)
  | redir (cmd : Cmd α) (file : α) (mode fd : ℕ)
  | pipe (left right : Cmd α)
  | list (left right : Cmd α)
  | back (cmd : Cmd α)
  deriving DecidableEq, Repr

namespace Cmd

variable {α β : Type}

def map (f : α → β) : Cmd α → Cmd β
  | exec argv => exec (argv.map f)
  | redir c file mode fd => redir (c.map f) (f file) mode fd
  | pipe l r => pipe (l.map f) (r.map f)
  | list l r => list (l.map f) (r.map f)
  | back c => back (c.map f)

/-- No simple command has more than `k` words. -/
def Within (k : ℕ) : Cmd α → Prop
  | exec argv => argv.length ≤ k
  | redir c _ _ _ => c.Within k
  | pipe l r => l.Within k ∧ r.Within k
  | list l r => l.Within k ∧ r.Within k
  | back c => c.Within k

end Cmd

/-- The operators of redirections. -/
inductive Dir
  | input
  | output
  | append
  deriving DecidableEq, Repr

namespace Dir

def op : Dir → Op
  | input => .lt
  | output => .gt
  | append => .app

/-- How the file is opened. -/
def mode : Dir → ℕ
  | input => O_RDONLY
  | output => O_WRONLY ||| O_CREATE ||| O_TRUNC
  | append => O_WRONLY ||| O_CREATE

/-- The descriptor that is redirected. -/
def fd : Dir → ℕ
  | input => 0
  | output => 1
  | append => 1

end Dir

/-- A command with redirections around it, the last one outermost. -/
def redirect {α : Type} (rs : List (Dir × α)) (c : Cmd α) : Cmd α :=
  rs.foldl (fun c r => .redir c r.2 r.1.mode r.1.fd) c

/-- `redir*` -/
inductive Redirs : List Tok → List (Dir × Str) → Prop
  | nil : Redirs [] []
  | cons {d : Dir} {w : Str} {u : List Tok} {rs : List (Dir × Str)} : Redirs u rs →
      Redirs (.op d.op :: .word w :: u) ((d, w) :: rs)

/-- `(word redir*)*` -/
inductive Words : List Tok → List Str → List (Dir × Str) → Prop
  | nil : Words [] [] []
  | cons {w : Str} {u v : List Tok} {ws : List Str} {rs rs' : List (Dir × Str)} : Redirs u rs →
      Words v ws rs' → Words (.word w :: (u ++ v)) (w :: ws) (rs ++ rs')

/-- The nonterminals of the grammar. -/
inductive Nonterm
  | line
  | pipe
  | exec

/-- What the nonterminals derive:

* `line ::= pipe '&'* [';' line]`
* `pipe ::= exec ['|' pipe]`
* `exec ::= '(' line ')' redir* | redir* (word redir*)*` -/
inductive Derives : Nonterm → List Tok → Cmd Str → Prop
  | line {u : List Tok} {c : Cmd Str} (n : ℕ) : Derives .pipe u c →
      Derives .line (u ++ List.replicate n (.op .amp)) (Cmd.back^[n] c)
  | list {u v : List Tok} {c d : Cmd Str} (n : ℕ) : Derives .pipe u c → Derives .line v d →
      Derives .line (u ++ List.replicate n (.op .amp) ++ .op .semi :: v) (.list (Cmd.back^[n] c) d)
  | one {u : List Tok} {c : Cmd Str} : Derives .exec u c → Derives .pipe u c
  | pipe {u v : List Tok} {c d : Cmd Str} : Derives .exec u c → Derives .pipe v d →
      Derives .pipe (u ++ .op .pipe :: v) (.pipe c d)
  | block {u v : List Tok} {c : Cmd Str} {rs : List (Dir × Str)} : Derives .line u c →
      Redirs v rs → Derives .exec (.op .lpar :: (u ++ .op .rpar :: v)) (redirect rs c)
  | simple {u v : List Tok} {ws : List Str} {rs rs' : List (Dir × Str)} : Redirs u rs →
      Words v ws rs' → Derives .exec (u ++ v) (redirect (rs ++ rs') (.exec ws))

end Xv6.Shell
