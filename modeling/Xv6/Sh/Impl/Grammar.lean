import Xv6.Sh.Impl.Parse

/-!
What the shell's language is: the tokens of a text, and the grammar that assigns a tree to a list of
tokens.
-/

namespace Xv6
namespace Sh

inductive Token where
  | word (text : List Char)
  | sym (c : Char)
  -- `>>`
  | append
  deriving DecidableEq, Repr

/--
Tokens are separated by any white space, and a word is a maximal run of characters that are neither
white space nor symbols.
-/
def lex : List Char → List Token
  | [] => []
  | c :: l =>
    if isSpace c then
      lex l
    else if isWord c then
      .word (c :: l.takeWhile isWord) :: lex (l.dropWhile isWord)
    else if c = '>' ∧ l.head? = some '>' then
      .append :: lex l.tail
    else
      .sym c :: lex l
termination_by l => l.length
decreasing_by
  all_goals simp only [List.length_cons, List.length_tail]
  . omega
  . have := (List.dropWhile_suffix isWord (l := l)).length_le
    omega
  . omega
  . omega

inductive Tree where
  | exec (argv : List (List Char))
  | redir (cmd : Tree) (file : List Char) (mode fd : Nat)
  | pipe (left right : Tree)
  | list (left right : Tree)
  | back (cmd : Tree)
  deriving DecidableEq, Repr

/-- A redirection: the name of the file, the mode and the descriptor. -/
structure Redir where
  file : List Char
  mode : Nat
  fd : Nat

/-- The redirections are wrapped around the command in the order in which they occur. -/
def wrap (t : Tree) (rs : List Redir) : Tree :=
  rs.foldl (fun t r => .redir t r.file r.mode r.fd) t

/-- The mode and the descriptor for `<`, `>` and `>>`. -/
def Token.redir : Token → Option (Nat × Nat)
  | .word _ => none
  | .sym c =>
    if c = '<' then
      some (O_RDONLY, 0)
    else if c = '>' then
      some (O_WRONLY ||| O_CREATE, 1)
    else
      none
  | .append => some (O_WRONLY ||| O_CREATE, 1)

/-- `redirs ::= {('<' | '>' | '>>') word}` -/
inductive Redirs : List Token → List Redir → Prop where
  | nil : Redirs [] []
  | cons {t : Token} {mode fd : Nat} {w : List Char} {ts : List Token} {rs : List Redir} :
      t.redir = some (mode, fd) → Redirs ts rs → Redirs (t :: .word w :: ts) (⟨w, mode, fd⟩ :: rs)

/-- `{word redirs}` -/
inductive Args : List Token → List (List Char) → List Redir → Prop where
  | nil : Args [] [] []
  | cons {w : List Char} {ts us : List Token} {ws : List (List Char)} {rs qs : List Redir} :
      Redirs ts rs → Args us ws qs → Args (.word w :: ts ++ us) (w :: ws) (rs ++ qs)

inductive Symbol where
  | line
  | pipe
  | exec

/-- `{'&'}` around a command. -/
def backs (t : Tree) : Nat → Tree
  | 0 => t
  | n + 1 => backs (.back t) n

/--
```
line ::= pipe {'&'} [';' line]
pipe ::= exec ['|' pipe]
exec ::= '(' line ')' redirs | redirs {word redirs}
```
-/
inductive Derives : Symbol → List Token → Tree → Prop where
  | last {ts : List Token} {t : Tree} (n : Nat) :
      Derives .pipe ts t → Derives .line (ts ++ List.replicate n (.sym '&')) (backs t n)
  | seq {ts us : List Token} {t u : Tree} (n : Nat) :
      Derives .pipe ts t → Derives .line us u →
      Derives .line (ts ++ List.replicate n (.sym '&') ++ .sym ';' :: us) (.list (backs t n) u)
  | single {ts : List Token} {t : Tree} : Derives .exec ts t → Derives .pipe ts t
  | pipe {ts us : List Token} {t u : Tree} :
      Derives .exec ts t → Derives .pipe us u →
      Derives .pipe (ts ++ .sym '|' :: us) (.pipe t u)
  | block {ts us : List Token} {t : Tree} {rs : List Redir} :
      Derives .line ts t → Redirs us rs →
      Derives .exec (.sym '(' :: ts ++ .sym ')' :: us) (wrap t rs)
  | simple {ts us : List Token} {ws : List (List Char)} {rs qs : List Redir} :
      Redirs ts rs → Args us ws qs → ws.length ≤ MAXARGS - 1 →
      Derives .exec (ts ++ us) (wrap (.exec ws) (rs ++ qs))

/-! The tree that a command stands for, with its strings read from the buffer. -/

def cstring (m : List Char) (q : Nat) : List Char := (m.drop q).takeWhile (· ≠ NUL)

def Cmd.view (m : List Char) : Cmd → Tree
  | .exec args => .exec (args.map fun arg => cstring m arg.1)
  | .redir cmd file _ mode fd => .redir (cmd.view m) (cstring m file) mode fd
  | .pipe left right => .pipe (left.view m) (right.view m)
  | .list left right => .list (left.view m) (right.view m)
  | .back cmd => .back (cmd.view m)

/-- The messages with which the parser refuses a text. -/
def syntaxErrors : List String :=
  ["syntax", "missing file for redirection", "syntax - missing )", "too many args"]

end Sh
end Xv6
