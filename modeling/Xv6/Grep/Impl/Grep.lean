import Xv6.Basic
import Xv6.Data.Copy
import Xv6.Grep.Impl.Match

/-!
The loop of `grep.c` that takes the lines out of what `read` returns. A pointer into `buf` is its
offset.
-/

namespace Xv6
namespace Grep

abbrev BUFSIZE : Nat := 1024

abbrev Buf := Nat → Char

-- the string at `p`, of which at most `left` characters are in the buffer
def cstring (buf : Buf) : Nat → Nat → List Char
  | 0, _ => []
  | left + 1, p => if buf p = NUL then [] else buf p :: cstring buf left (p + 1)

-- strchr(p, c), when `left` characters of the buffer are left
def strchr (buf : Buf) (c : Char) : Nat → Nat → Except Fault (Option Nat)
  | 0, _ => .error .outOfBounds
  | left + 1, p =>
    if buf p = NUL then
      .ok none
    else if buf p = c then
      .ok (some p)
    else
      strchr buf c left (p + 1)

structure State where
  buf : Buf
  m : Nat
  out : List (List Char)

def lineLoop (pattern : List Char)
    : Nat → Buf → Nat → List (List Char) → Except Fault (Buf × Nat × List (List Char))
  | 0, _, _, _ => .error .diverges
  | fuel + 1, buf, p, out => do
    match ← strchr buf '\n' (BUFSIZE - p) p with
    | none => return (buf, p, out)
    | some q =>
      let buf := Function.update buf q NUL
      if matchText pattern (cstring buf (BUFSIZE - p) p) then
        let buf := Function.update buf q '\n'
        lineLoop pattern fuel buf (q + 1) (out ++ [(List.range (q + 1 - p)).map fun i => buf (p + i)])
      else
        lineLoop pattern fuel buf (q + 1) out

-- read(fd, buf+m, ..) with the result `r`
def store (buf : Buf) (m : Nat) (r : List Char) : Buf :=
  fun i => if m ≤ i ∧ i < m + r.length then r.getD (i - m) NUL else buf i

def turn (pattern : List Char) (s : State) (r : List Char) : Except Fault State := do
  let m := s.m + r.length
  let buf := Function.update (store s.buf s.m r) m NUL
  let (buf, p, out) ← lineLoop pattern BUFSIZE buf 0 s.out
  let m := if p = 0 then 0 else m
  if m > 0 then
    let m := m - p
    -- memmove(buf, p, m)
    return ⟨Copy.run (· + 1) m buf 0 p, m, out⟩
  else
    return ⟨buf, m, out⟩

-- `reads` are the results of read until it returns 0
def grep (pattern : List Char) : List (List Char) → State → Except Fault State
  | [], s => .ok s
  | r :: reads, s => do
    let s ← turn pattern s r
    grep pattern reads s

-- read returns something, and no more than it has been asked for
def Delivers (pattern : List Char) : State → List (List Char) → Prop
  | _, [] => True
  | s, r :: reads =>
    0 < r.length ∧ r.length ≤ BUFSIZE - s.m - 1 ∧
      ∀ t, turn pattern s r = .ok t → Delivers pattern t reads

end Grep
end Xv6
