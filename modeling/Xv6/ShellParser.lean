import Mathlib.Tactic.Common

/-!
# The parser of the shell

`gettoken`, `peek` and the functions of `sh.c` that parse a command line by recursive descent.
The pointer `*ps` into the line is the part of the line that is left. The parser is generic in what
a tree holds of a pair of pointers `q` and `eq`: that is a function `word` of the line from `q` on
and of the text between them. Calls and rounds of loops are counted by `fuel`.
-/

namespace Xv6.Shell

def oRdonly : ℕ := 0x000

def oWronly : ℕ := 0x001

def oCreate : ℕ := 0x200

def oTrunc : ℕ := 0x400

def maxArgs : ℕ := 10

/-- The trees that the constructors `execcmd`, `redircmd`, `pipecmd`, `listcmd` and `backcmd`
make. -/
inductive Cmd (W : Type) where
  | exec (argv : List W)
  | redir (cmd : Cmd W) (file : W) (mode fd : ℕ)
  | pipe (left right : Cmd W)
  | list (left right : Cmd W)
  | back (cmd : Cmd W)
  deriving DecidableEq, Repr

/-- How parsing ends without a tree: by `panic`, after a message about what is left over of the
line, or not within the given fuel. -/
inductive Stop where
  | panic (msg : String)
  | leftovers (s : List Char)
  | fuel
  deriving DecidableEq, Repr

def whitespace : List Char := [' ', '\t', '\r', '\n', '\x0b']

def symbols : List Char := ['<', '|', '>', '&', ';', '(', ')']

/-- `strchr` of a character that is not zero. -/
def strchr (t : List Char) (c : Char) : Bool := t.contains c

def skip (s : List Char) : List Char := s.dropWhile (strchr whitespace)

def wordChar (c : Char) : Bool := !strchr whitespace c && !strchr symbols c

/-- `gettoken`: the token, its text, and what is left of the line. -/
def gettoken (s : List Char) : Char × List Char × List Char :=
  match skip s with
  | [] => ('\x00', [], [])
  | '|' :: t => ('|', ['|'], skip t)
  | '(' :: t => ('(', ['('], skip t)
  | ')' :: t => (')', [')'], skip t)
  | ';' :: t => (';', [';'], skip t)
  | '&' :: t => ('&', ['&'], skip t)
  | '<' :: t => ('<', ['<'], skip t)
  | '>' :: '>' :: t => ('+', ['>', '>'], skip t)
  | '>' :: t => ('>', ['>'], skip t)
  | t => ('a', t.takeWhile wordChar, skip (t.dropWhile wordChar))

def peek (toks : List Char) (s : List Char) : Bool × List Char :=
  match skip s with
  | [] => (false, [])
  | c :: t => (strchr toks c, c :: t)

section Parser

variable {W : Type}

/-- `cmd->argv[argc] = q` and `cmd->eargv[argc] = eq` in the node that `execcmd` made, which is
below the redirections. -/
def addArg : Cmd W → W → Cmd W
  | .exec argv, w => .exec (argv ++ [w])
  | .redir cmd file mode fd, w => .redir (addArg cmd w) file mode fd
  | cmd, _ => cmd

/-- The loop of `parseline` over `&`. -/
def parseback : (fuel : ℕ) → Cmd W → List Char → Except Stop (Cmd W × List Char)
  | 0, _, _ => throw .fuel
  | n + 1, cmd, s =>
    let (more, s) := peek ['&'] s
    if more then
      let (_, _, s) := gettoken s
      parseback n (.back cmd) s
    else
      return (cmd, s)

variable (word : (q text : List Char) → W)

def parseredirs : (fuel : ℕ) → Cmd W → List Char → Except Stop (Cmd W × List Char)
  | 0, _, _ => throw .fuel
  | n + 1, cmd, s =>
    let (more, s) := peek ['<', '>'] s
    if more then
      let (tok, _, s) := gettoken s
      let (a, text, s') := gettoken s
      let file := word (skip s) text
      if a ≠ 'a' then
        throw (.panic "missing file for redirection")
      else if tok = '<' then
        parseredirs n (.redir cmd file oRdonly 0) s'
      else if tok = '>' then
        parseredirs n (.redir cmd file (oWronly ||| oCreate ||| oTrunc) 1) s'
      else if tok = '+' then
        parseredirs n (.redir cmd file (oWronly ||| oCreate) 1) s'
      else
        parseredirs n cmd s'
    else
      return (cmd, s)

/-- The loop of `parseexec` over the arguments. -/
def parseargs : (fuel : ℕ) → (argc : ℕ) → Cmd W → List Char → Except Stop (Cmd W × List Char)
  | 0, _, _, _ => throw .fuel
  | n + 1, argc, ret, s =>
    let (stop, s) := peek ['|', ')', '&', ';'] s
    if stop then
      return (ret, s)
    else
      let (tok, text, s') := gettoken s
      if tok = '\x00' then
        return (ret, s')
      else if tok ≠ 'a' then
        throw (.panic "syntax")
      else if maxArgs ≤ argc + 1 then
        throw (.panic "too many args")
      else do
        let (ret, s) ← parseredirs word n (addArg ret (word (skip s) text)) s'
        parseargs n (argc + 1) ret s

mutual

def parseline : (fuel : ℕ) → List Char → Except Stop (Cmd W × List Char)
  | 0, _ => throw .fuel
  | n + 1, s => do
    let (cmd, s) ← parsepipe n s
    let (cmd, s) ← parseback n cmd s
    let (more, s) := peek [';'] s
    if more then
      let (_, _, s) := gettoken s
      let (right, s) ← parseline n s
      return (.list cmd right, s)
    else
      return (cmd, s)

def parsepipe : (fuel : ℕ) → List Char → Except Stop (Cmd W × List Char)
  | 0, _ => throw .fuel
  | n + 1, s => do
    let (cmd, s) ← parseexec n s
    let (more, s) := peek ['|'] s
    if more then
      let (_, _, s) := gettoken s
      let (right, s) ← parsepipe n s
      return (.pipe cmd right, s)
    else
      return (cmd, s)

def parseblock : (fuel : ℕ) → List Char → Except Stop (Cmd W × List Char)
  | 0, _ => throw .fuel
  | n + 1, s =>
    let (opened, s) := peek ['('] s
    if !opened then
      throw (.panic "parseblock")
    else do
      let (_, _, s) := gettoken s
      let (cmd, s) ← parseline n s
      let (closed, s) := peek [')'] s
      if !closed then
        throw (.panic "syntax - missing )")
      else
        let (_, _, s) := gettoken s
        parseredirs word n cmd s

def parseexec : (fuel : ℕ) → List Char → Except Stop (Cmd W × List Char)
  | 0, _ => throw .fuel
  | n + 1, s =>
    let (opened, s) := peek ['('] s
    if opened then
      parseblock n s
    else do
      let (ret, s) ← parseredirs word n (.exec []) s
      parseargs word n 0 ret s

end

def text (buf : List Char) : List Char := buf.takeWhile (· ≠ '\x00')

/-- `parsecmd`, up to `nulterminate`. -/
def parsecmd (fuel : ℕ) (buf : List Char) : Except Stop (Cmd W) := do
  let (cmd, s) ← parseline word fuel (text buf)
  let (_, s) := peek [] s
  if s ≠ [] then
    throw (.leftovers s)
  else
    return cmd

end Parser

/-- A tree that holds its words themselves. -/
abbrev asText (_ text : List Char) : List Char := text

end Xv6.Shell
