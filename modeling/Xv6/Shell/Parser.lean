import Xv6.Shell.Grammar

/-! # The parser of the shell

The functions of `sh.c` from `gettoken` to `nulterminate`. A pointer into the
line is what is left of the line from there; `es` is the empty rest. The loops
and the recursion are cut off after `fuel` rounds.
-/

namespace Xv6.Shell

inductive Halt
  | missingFile -- "missing file for redirection"
  | parseblock -- "parseblock"
  | missingParen -- "syntax - missing )"
  | syntaxError -- "syntax"
  | tooManyArgs -- "too many args"
  /-- The recursion has been cut off. -/
  | fuel
  deriving DecidableEq, Repr

abbrev MAXARGS : ℕ := 10

/-- The result of `gettoken`: the end of the line, an operator, or 'a' for a word. -/
inductive Kind
  | eof
  | op (o : Op)
  | word
  deriving DecidableEq, Repr

/-- The pointers to the beginning of a word and behind its end. -/
abbrev Span := Str × Str

def skip (s : Str) : Str := s.dropWhile whitespace.contains

/-- The `switch` of `gettoken`, with the end of the token. -/
def scan : Str → Kind × Str
  | [] => (.eof, [])
  | c :: s =>
    match single c with
    | some o => (.op o, s)
    | none =>
      if c = chr '>' then if s.head? = some (chr '>') then (.op .app, s.tail) else (.op .gt, s)
      else (.word, (c :: s).dropWhile isWord)

/-- The kind of the next token, the pointers to it and the rest. -/
def gettoken (s : Str) : Kind × Span × Str :=
  ((scan (skip s)).1, (skip s, (scan (skip s)).2), skip (scan (skip s)).2)

/-- Whether the next token begins with one of `toks`, and the rest after white space. -/
def peek (s : Str) (toks : List Char) : Bool × Str :=
  ((skip s).head?.any fun c => (toks.map chr).contains c, skip s)

/-- Append to the arguments of the command that `parseexec` is building, inside its redirections. -/
def Cmd.addArg {α : Type} (a : α) : Cmd α → Cmd α
  | exec argv => exec (argv ++ [a])
  | redir c file mode fd => redir (c.addArg a) file mode fd
  | c => c

def parseredirs : ℕ → Cmd Span → Str → Except Halt (Cmd Span × Str)
  | 0, _, _ => .error .fuel
  | fuel + 1, cmd, s =>
    match peek s ['<', '>'] with
    | (false, s) => .ok (cmd, s)
    | (true, s) =>
      let (tok, _, s) := gettoken s
      let (arg, file, s) := gettoken s
      if arg ≠ .word then .error .missingFile
      else
        let cmd := match tok with
          | .op .lt => .redir cmd file O_RDONLY 0
          | .op .gt => .redir cmd file (O_WRONLY ||| O_CREATE ||| O_TRUNC) 1
          | .op .app => .redir cmd file (O_WRONLY ||| O_CREATE) 1
          | _ => cmd
        parseredirs fuel cmd s

/-- The loop of `parseexec`. -/
def parseargs : ℕ → Cmd Span → ℕ → Str → Except Halt (Cmd Span × Str)
  | 0, _, _, _ => .error .fuel
  | fuel + 1, ret, argc, s =>
    match peek s ['|', ')', '&', ';'] with
    | (true, s) => .ok (ret, s)
    | (false, s) =>
      match gettoken s with
      | (.eof, _, s) => .ok (ret, s)
      | (.op _, _, _) => .error .syntaxError
      | (.word, arg, s) =>
        if argc + 1 ≥ MAXARGS then .error .tooManyArgs
        else do
          let (ret, s) ← parseredirs (s.length + 1) (ret.addArg arg) s
          parseargs fuel ret (argc + 1) s

/-- The loop of `parseline`. -/
def parseback : ℕ → Cmd Span → Str → Except Halt (Cmd Span × Str)
  | 0, _, _ => .error .fuel
  | fuel + 1, cmd, s =>
    match peek s ['&'] with
    | (true, s) => parseback fuel (.back cmd) (gettoken s).2.2
    | (false, s) => .ok (cmd, s)

mutual

def parseline : ℕ → Str → Except Halt (Cmd Span × Str)
  | 0, _ => .error .fuel
  | fuel + 1, s => do
    let (cmd, s) ← parsepipe fuel s
    let (cmd, s) ← parseback (s.length + 1) cmd s
    match peek s [';'] with
    | (true, s) => do
      let (right, s) ← parseline fuel (gettoken s).2.2
      pure (.list cmd right, s)
    | (false, s) => pure (cmd, s)

def parsepipe : ℕ → Str → Except Halt (Cmd Span × Str)
  | 0, _ => .error .fuel
  | fuel + 1, s => do
    let (cmd, s) ← parseexec fuel s
    match peek s ['|'] with
    | (true, s) => do
      let (right, s) ← parsepipe fuel (gettoken s).2.2
      pure (.pipe cmd right, s)
    | (false, s) => pure (cmd, s)

def parseexec : ℕ → Str → Except Halt (Cmd Span × Str)
  | 0, _ => .error .fuel
  | fuel + 1, s =>
    match peek s ['('] with
    | (true, s) => parseblock fuel s
    | (false, s) => do
      let (ret, s) ← parseredirs (s.length + 1) (.exec []) s
      parseargs (s.length + 1) ret 0 s

def parseblock : ℕ → Str → Except Halt (Cmd Span × Str)
  | 0, _ => .error .fuel
  | fuel + 1, s =>
    match peek s ['('] with
    | (false, _) => .error .parseblock
    | (true, s) => do
      let (cmd, s) ← parseline fuel (gettoken s).2.2
      match peek s [')'] with
      | (false, _) => .error .missingParen
      | (true, s) =>
        let s := (gettoken s).2.2
        parseredirs (s.length + 1) cmd s

end

/-- The memory of the line, by the distance from `es`. -/
def load (s : Str) (d : ℕ) : UInt8 := if d = 0 then 0 else s.getD (s.length - d) 0

def nulterminate : Cmd Span → (ℕ → UInt8) → ℕ → UInt8
  | .exec argv, m => argv.foldl (fun m p => Function.update m p.2.length 0) m
  | .redir c file _ _, m => Function.update (nulterminate c m) file.2.length 0
  | .pipe l r, m => nulterminate r (nulterminate l m)
  | .list l r, m => nulterminate r (nulterminate l m)
  | .back c, m => nulterminate c m

/-- The string that begins `d` bytes before `es`. -/
def cstring (m : ℕ → UInt8) : ℕ → Str
  | 0 => []
  | d + 1 => if m (d + 1) = 0 then [] else m (d + 1) :: cstring m d

/-- The command with the strings that `runcmd` finds in it. -/
def parsecmd (s : Str) : Except Halt (Cmd Str) := do
  let (cmd, rest) ← parseline (4 * s.length + 4) s
  let (_, rest) := peek rest []
  if rest ≠ [] then throw .syntaxError
  let m := nulterminate cmd (load s)
  pure (cmd.map fun p => cstring m p.1.length)

end Xv6.Shell
