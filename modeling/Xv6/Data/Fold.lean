import Mathlib.Data.Nat.Notation

/-!
Loops as folds: the rules for invariants, and for loops whose steps may fail.
-/

namespace Fold

variable {ε : Type u} {α σ : Type v}

theorem ok_bind (a : α) (f : α → Except ε σ) : (Except.ok a >>= f) = f a := rfl

theorem bind_eq_ok {x : Except ε α} {f : α → Except ε σ} {t : σ} (h : (x >>= f) = .ok t)
    : ∃ a, x = .ok a ∧ f a = .ok t := by
  cases x with
  | error e => cases h
  | ok a => exact ⟨a, rfl, h⟩

theorem foldlM_ok {f : σ → α → Except ε σ} {P : σ → Prop}
    (hstep : ∀ s a, P s → ∃ t, f s a = .ok t ∧ P t) (l : List α) (s : σ) (hs : P s)
    : ∃ t, l.foldlM f s = .ok t ∧ P t := by
  induction l generalizing s with
  | nil => exact ⟨s, rfl, hs⟩
  | cons a l ih =>
    rcases hstep s a hs with ⟨t, ht, hPt⟩
    rcases ih t hPt with ⟨u, hu, hPu⟩
    refine ⟨u, ?_, hPu⟩
    rw [List.foldlM_cons, ht, ok_bind, hu]

theorem foldl_range {f : σ → Nat → σ} {P : Nat → σ → Prop} {n : Nat} {s : σ} (h0 : P 0 s)
    (hstep : ∀ i s, i < n → P i s → P (i + 1) (f s i))
    : P n ((List.range n).foldl f s) := by
  induction n with
  | zero => exact h0
  | succ n ih =>
    rw [List.range_succ, List.foldl_append]
    apply hstep
    . omega
    . apply ih
      intro i s hi
      apply hstep
      omega

theorem foldlM_range {f : σ → Nat → Except ε σ} {P : Nat → σ → Prop} {n : Nat} {s : σ}
    (h0 : P 0 s) (hstep : ∀ i s, i < n → P i s → ∃ t, f s i = .ok t ∧ P (i + 1) t)
    : ∃ t, (List.range n).foldlM f s = .ok t ∧ P n t := by
  induction n with
  | zero => exact ⟨s, rfl, h0⟩
  | succ n ih =>
    rcases ih (fun i s hi => hstep i s (by omega)) with ⟨t, ht, hPt⟩
    rcases hstep n t (by omega) hPt with ⟨u, hu, hPu⟩
    refine ⟨u, ?_, hPu⟩
    rw [List.range_succ, List.foldlM_append, ht, ok_bind, List.foldlM_cons, hu, ok_bind]
    rfl

end Fold
