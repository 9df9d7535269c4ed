import Mathlib.Data.List.TakeWhile

/-!
Scanning a text from a position: `while(s < es && p(*s)) s++`.
-/

namespace Scan

variable {α : Type u}

def run (p : α → Bool) (l : List α) (s : Nat) : Nat := s + ((l.drop s).takeWhile p).length

theorem drop_run (p : α → Bool) (l : List α) (s : Nat)
    : l.drop (run p l s) = (l.drop s).dropWhile p := by
  rw [run, ← List.drop_drop]
  generalize l.drop s = r
  induction r with
  | nil => rfl
  | cons a r ih =>
    by_cases ha : p a
    . simp [ha, ih]
    . simp [ha]

theorem run_le {p : α → Bool} {l : List α} {s : Nat} (h : s ≤ l.length)
    : run p l s ≤ l.length := by
  have := (List.takeWhile_prefix p (l := l.drop s)).length_le
  rw [List.length_drop] at this
  rw [run]
  omega

end Scan
