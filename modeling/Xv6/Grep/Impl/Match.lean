import Mathlib.Computability.Language

/-!
The matcher of `grep.c` and the meaning of its patterns. A string is what stands in front of its
NUL, and a pointer into it is the rest of the string from there on.
-/

namespace Xv6
namespace Grep

abbrev NUL : Char := '\x00'

def deref (s : List Char) : Char := s.headD NUL

def second (s : List Char) : Char := s.getD 1 NUL

theorem length_tail_lt {s : List Char} (h : deref s ≠ NUL) : s.tail.length < s.length := by
  cases s with
  | nil => exact absurd rfl h
  | cons c s => simp

mutual

def matchhere (re text : List Char) : Bool :=
  if deref re = NUL then
    true
  else if second re = '*' then
    matchstar (deref re) (re.drop 2) text
  else if deref re = '$' ∧ second re = NUL then
    deref text = NUL
  else if deref text ≠ NUL ∧ (deref re = '.' ∨ deref re = deref text) then
    matchhere re.tail text.tail
  else
    false
termination_by (re.length, text.length, 0)
decreasing_by
  all_goals
    rename deref re ≠ NUL => hre
    have := length_tail_lt hre
    apply Prod.Lex.left
    simp at *
    omega

def matchstar (c : Char) (re text : List Char) : Bool :=
  if matchhere re text then
    true
  else if deref text ≠ NUL ∧ (deref text = c ∨ c = '.') then
    matchstar c re text.tail
  else
    false
termination_by (re.length, text.length, 1)
decreasing_by
  . apply Prod.Lex.right
    apply Prod.Lex.right
    decide
  . rename_i h
    apply Prod.Lex.right
    apply Prod.Lex.left
    exact length_tail_lt h.1

end

def matchLoop (re : List Char) (text : List Char) : Bool :=
  if matchhere re text then
    true
  else if deref text ≠ NUL then
    matchLoop re text.tail
  else
    false
termination_by text.length
decreasing_by
  rename_i h
  exact length_tail_lt h

def matchText (re text : List Char) : Bool :=
  if deref re = '^' then
    matchhere re.tail text
  else
    matchLoop re text

end Grep
end Xv6
