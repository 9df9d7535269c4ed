import Xv6.Basic
import Xv6.Data.Scan

/-!
The parser of the shell, `sh.c`. A text is what stands in front of its NUL, and a pointer into it
is a position; at the position `es` behind the text stands the NUL. Memory for the commands is
always found.
-/

namespace Xv6
namespace Sh

abbrev NUL : Char := '\x00'

abbrev MAXARGS : Nat := 10

abbrev O_RDONLY : Nat := 0x000
abbrev O_WRONLY : Nat := 0x001
abbrev O_CREATE : Nat := 0x200

inductive Cmd where
  -- the pairs `argv[i]`, `eargv[i]` in front of the null pointer
  | exec (args : List (Nat × Nat))
  | redir (cmd : Cmd) (file efile : Nat) (mode fd : Nat)
  | pipe (left right : Cmd)
  | list (left right : Cmd)
  | back (cmd : Cmd)
  deriving DecidableEq, Repr

def whitespace : List Char := [' ', '\t', '\r', '\n', '\x0b']

def symbols : List Char := ['<', '|', '>', '&', ';', '(', ')']

def isSpace (c : Char) : Bool := whitespace.contains c

def isWord (c : Char) : Bool := !whitespace.contains c && !symbols.contains c

def deref (buf : List Char) (s : Nat) : Char := buf.getD s NUL

/-- What `gettoken` returns and stores through its pointers. -/
structure Scanned where
  ret : Char
  q : Nat
  eq : Nat
  ps : Nat

/-- The `switch` of `gettoken`: what it returns for the token at `s`, and the end of the token. -/
def switchToken (buf : List Char) (s : Nat) : Char × Nat :=
  let c := deref buf s
  if c = NUL then
    (c, s)
  else if c = '|' ∨ c = '(' ∨ c = ')' ∨ c = ';' ∨ c = '&' ∨ c = '<' then
    (c, s + 1)
  else if c = '>' then
    if deref buf (s + 1) = '>' then
      ('+', s + 2)
    else
      (c, s + 1)
  else
    ('a', Scan.run isWord buf s)

def gettoken (buf : List Char) (s : Nat) : Scanned :=
  let q := Scan.run isSpace buf s
  let (ret, eq) := switchToken buf q
  ⟨ret, q, eq, Scan.run isSpace buf eq⟩

def peek (buf : List Char) (s : Nat) (toks : List Char) : Bool × Nat :=
  let s := Scan.run isSpace buf s
  let c := deref buf s
  (c ≠ NUL && toks.contains c, s)

def parseredirs (buf : List Char) : Nat → Cmd → Nat → Except Fault (Cmd × Nat)
  | 0, _, _ => .error .diverges
  | fuel + 1, cmd, s =>
    let (more, s) := peek buf s ['<', '>']
    if more then
      let tok := gettoken buf s
      let file := gettoken buf tok.ps
      if file.ret ≠ 'a' then
        .error (.panic "missing file for redirection")
      else if tok.ret = '<' then
        parseredirs buf fuel (.redir cmd file.q file.eq O_RDONLY 0) file.ps
      else if tok.ret = '>' then
        parseredirs buf fuel (.redir cmd file.q file.eq (O_WRONLY ||| O_CREATE) 1) file.ps
      else if tok.ret = '+' then
        parseredirs buf fuel (.redir cmd file.q file.eq (O_WRONLY ||| O_CREATE) 1) file.ps
      else
        parseredirs buf fuel cmd file.ps
    else
      .ok (cmd, s)

/--
`cmd->argv[argc] = q; cmd->eargv[argc] = eq` for the `execcmd` inside the redirections that have
been wrapped around it.
-/
def Cmd.addArg (q eq : Nat) : Cmd → Cmd
  | .exec args => .exec (args ++ [(q, eq)])
  | .redir cmd file efile mode fd => .redir (cmd.addArg q eq) file efile mode fd
  | cmd => cmd

/-- The `while` of `parseexec` and the null pointer stored after it. -/
def parseargs (buf : List Char) : Nat → Nat → Cmd → Nat → Except Fault (Cmd × Nat)
  | 0, _, _, _ => .error .diverges
  | fuel + 1, argc, ret, s =>
    let (stop, s) := peek buf s ['|', ')', '&', ';']
    if stop then
      if argc < MAXARGS then
        .ok (ret, s)
      else
        .error .outOfBounds
    else
      let tok := gettoken buf s
      if tok.ret = NUL then
        if argc < MAXARGS then
          .ok (ret, tok.ps)
        else
          .error .outOfBounds
      else if tok.ret ≠ 'a' then
        .error (.panic "syntax")
      else if ¬argc < MAXARGS then
        .error .outOfBounds
      else if argc + 1 ≥ MAXARGS then
        .error (.panic "too many args")
      else do
        let (ret, s) ← parseredirs buf fuel (ret.addArg tok.q tok.eq) tok.ps
        parseargs buf fuel (argc + 1) ret s

/-- The `while` of `parseline`. -/
def parsebacks (buf : List Char) : Nat → Cmd → Nat → Except Fault (Cmd × Nat)
  | 0, _, _ => .error .diverges
  | fuel + 1, cmd, s =>
    let (more, s) := peek buf s ['&']
    if more then
      parsebacks buf fuel (.back cmd) (gettoken buf s).ps
    else
      .ok (cmd, s)

mutual

def parseline (buf : List Char) : Nat → Nat → Except Fault (Cmd × Nat)
  | 0, _ => .error .diverges
  | fuel + 1, s => do
    let (cmd, s) ← parsepipe buf fuel s
    let (cmd, s) ← parsebacks buf fuel cmd s
    let (more, s) := peek buf s [';']
    if more then
      let (right, s) ← parseline buf fuel (gettoken buf s).ps
      return (.list cmd right, s)
    else
      return (cmd, s)
termination_by structural fuel => fuel

def parsepipe (buf : List Char) : Nat → Nat → Except Fault (Cmd × Nat)
  | 0, _ => .error .diverges
  | fuel + 1, s => do
    let (cmd, s) ← parseexec buf fuel s
    let (more, s) := peek buf s ['|']
    if more then
      let (right, s) ← parsepipe buf fuel (gettoken buf s).ps
      return (.pipe cmd right, s)
    else
      return (cmd, s)
termination_by structural fuel => fuel

def parseexec (buf : List Char) : Nat → Nat → Except Fault (Cmd × Nat)
  | 0, _ => .error .diverges
  | fuel + 1, s => do
    let (block, s) := peek buf s ['(']
    if block then
      parseblock buf fuel s
    else
      let (ret, s) ← parseredirs buf fuel (.exec []) s
      parseargs buf fuel 0 ret s
termination_by structural fuel => fuel

def parseblock (buf : List Char) : Nat → Nat → Except Fault (Cmd × Nat)
  | 0, _ => .error .diverges
  | fuel + 1, s => do
    let (isBlock, s) := peek buf s ['(']
    if !isBlock then
      throw (.panic "parseblock")
    let (cmd, s) ← parseline buf fuel (gettoken buf s).ps
    let (closed, s) := peek buf s [')']
    if !closed then
      throw (.panic "syntax - missing )")
    parseredirs buf fuel cmd (gettoken buf s).ps
termination_by structural fuel => fuel

end

/-- The bytes that `nulterminate` writes; `m` is the text with its NUL. -/
def nulterminate (m : List Char) : Cmd → List Char
  | .exec args => args.foldl (fun m arg => m.set arg.2 NUL) m
  | .redir cmd _ efile _ _ => (nulterminate m cmd).set efile NUL
  | .pipe left right => nulterminate (nulterminate m left) right
  | .list left right => nulterminate (nulterminate m left) right
  | .back cmd => nulterminate m cmd

/-- The command and what stands in the buffer after `nulterminate`. -/
def parsecmd (fuel : Nat) (buf : List Char) : Except Fault (Cmd × List Char) := do
  let es := buf.length
  let (cmd, s) ← parseline buf fuel 0
  let (_, s) := peek buf s []
  if s ≠ es then
    throw (.panic "syntax")
  return (cmd, nulterminate (buf ++ [NUL]) cmd)

end Sh
end Xv6
