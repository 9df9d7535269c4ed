import Mathlib.Logic.Function.Basic

/-!
A store that is changed by a sequence of writes, of which only a prefix may have taken effect.
-/

namespace Writes

variable {α : Type u} {β : Type v} [DecidableEq α]

def apply (d : α → β) (ws : List (α × β)) : α → β :=
  ws.foldl (fun d w => Function.update d w.1 w.2) d

@[simp]
theorem apply_nil (d : α → β) : apply d [] = d := rfl

@[simp]
theorem apply_cons (d : α → β) (w : α × β) (ws : List (α × β))
    : apply d (w :: ws) = apply (Function.update d w.1 w.2) ws := rfl

theorem apply_append (d : α → β) (ws vs : List (α × β))
    : apply d (ws ++ vs) = apply (apply d ws) vs := by
  unfold apply
  rw [List.foldl_append]

theorem apply_of_notMem {d : α → β} {ws : List (α × β)} {a : α} (h : ∀ w ∈ ws, w.1 ≠ a)
    : apply d ws a = d a := by
  induction ws generalizing d with
  | nil => rfl
  | cons w ws ih =>
    rw [apply_cons, ih]
    . rw [Function.update_of_ne]
      apply Ne.symm
      apply h
      simp
    . intro v hv
      apply h
      simp [hv]

-- When all writes to `a` store the same value, one of them decides it.
theorem apply_of_mem {d : α → β} {ws : List (α × β)} {a : α} {v : β} (hmem : (a, v) ∈ ws)
    (h : ∀ w ∈ ws, w.1 = a → w.2 = v)
    : apply d ws a = v := by
  induction ws generalizing d with
  | nil => contradiction
  | cons w ws ih =>
    rw [apply_cons]
    by_cases hrest : (a, v) ∈ ws
    . apply ih hrest
      intro u hu
      apply h
      simp [hu]
    . have hw : w = (a, v) := by
        cases List.mem_cons.mp hmem with
        | inl heq => exact heq.symm
        | inr hmem => contradiction
      rw [apply_of_notMem]
      . rw [hw, Function.update_self]
      . intro u hu heq
        apply hrest
        have := h u (by simp [hu]) heq
        rw [← heq, ← this]
        exact hu

end Writes
