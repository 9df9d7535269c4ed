import Mathlib.Logic.Function.Iterate

/-!
A loop that copies cell by cell in one memory, `*d = *s` with both pointers moving on, when the cells
that it reads and those that it writes may be the same.
-/

namespace Copy

variable {ι : Type u} {α : Type v} [DecidableEq ι] {next : ι → ι} {d s a : ι} {n : Nat}

def run (next : ι → ι) : Nat → (ι → α) → ι → ι → ι → α
  | 0, m, _, _ => m
  | n + 1, m, d, s => run next n (Function.update m d (m s)) (next d) (next s)

theorem run_of_ne (m : ι → α) (h : ∀ i, i < n → a ≠ next^[i] d) : run next n m d s a = m a := by
  induction n generalizing m d s with
  | zero => rfl
  | succ n ih =>
    rw [run, ih]
    . exact Function.update_of_ne (h 0 (by omega)) _ _
    . intro i hi
      exact h (i + 1) (by omega)

-- No cell is written before it has been read, nor written twice.
theorem run_written (m : ι → α) (hread : ∀ i j, i < j → j < n → next^[i] d ≠ next^[j] s)
    (hwrite : ∀ i j, i < j → j < n → next^[i] d ≠ next^[j] d) {i : Nat} (hi : i < n)
    : run next n m d s (next^[i] d) = m (next^[i] s) := by
  induction n generalizing m d s i with
  | zero => omega
  | succ n ih =>
    rw [run]
    cases i with
    | zero =>
      rw [run_of_ne]
      . exact Function.update_self ..
      . intro j hj
        exact hwrite 0 (j + 1) (by omega) (by omega)
    | succ i =>
      have hrest := ih (Function.update m d (m s))
        (fun i j hij hj => hread (i + 1) (j + 1) (by omega) (by omega))
        (fun i j hij hj => hwrite (i + 1) (j + 1) (by omega) (by omega)) (Nat.lt_of_succ_lt_succ hi)
      exact hrest.trans (Function.update_of_ne (hread 0 (i + 1) (by omega) hi).symm _ _)

theorem run_self (m : ι → α) : run next n m d d = m := by
  induction n generalizing d with
  | zero => rfl
  | succ n ih => rw [run, Function.update_eq_self, ih]

theorem run_add (m : ι → α) (k : Nat)
    : run next (k + n) m d s = run next n (run next k m d s) (next^[k] d) (next^[k] s) := by
  induction k generalizing m d s with
  | zero => rw [Nat.zero_add, run, Function.iterate_zero_apply, Function.iterate_zero_apply]
  | succ k ih =>
    rw [Nat.succ_add, run, ih, run, Function.iterate_succ_apply, Function.iterate_succ_apply]

-- The first cell written is the one that the turn `k` reads.
theorem run_overwritten (m : ι → α) {k : Nat} (hpos : 0 < k) (hk : k < n) (hs : next^[k] s = d)
    (hwrite : ∀ i j, i < j → j < n → next^[i] d ≠ next^[j] d)
    : run next n m d s (next^[k] d) = m s := by
  rcases Nat.exists_eq_add_of_lt hk with ⟨r, rfl⟩
  rcases Nat.exists_eq_add_of_lt hpos with ⟨l, hl⟩
  have hfirst : run next k m d s d = m s := by
    rw [hl, Nat.zero_add, run, run_of_ne]
    . exact Function.update_self ..
    . intro i hi
      exact hwrite 0 (i + 1) (by omega) (by omega)
  rw [Nat.add_assoc, run_add, hs, run, hfirst, run_of_ne]
  . exact Function.update_self ..
  . intro i hi
    rw [← Function.iterate_succ_apply, ← Function.iterate_add_apply]
    exact hwrite k (i + 1 + k) (by omega) (by omega)

end Copy
