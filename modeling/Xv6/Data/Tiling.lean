import Mathlib.Algebra.BigOperators.Group.List.Basic
import Mathlib.Tactic.Linarith

/-!
Extents of a line, each given by its start and its length. Counting at each point the extents that
hold it says at once that they are disjoint and which part of the line they fill.
-/

namespace Tiling

/-- Whether the extent holds the point, as a number. -/
def mark (e : Nat × Nat) (x : Nat) : Nat :=
  if e.1 ≤ x ∧ x < e.1 + e.2 then
    1
  else
    0

def cover (l : List (Nat × Nat)) (x : Nat) : Nat := (l.map (mark · x)).sum

def Apart (e f : Nat × Nat) : Prop := e.1 + e.2 ≤ f.1 ∨ f.1 + f.2 ≤ e.1

@[simp]
theorem cover_nil (x : Nat)
    : cover [] x = 0 :=
  rfl

@[simp]
theorem cover_cons (e : Nat × Nat) (l : List (Nat × Nat)) (x : Nat)
    : cover (e :: l) x = mark e x + cover l x := by
  simp [cover]

@[simp]
theorem cover_append (l₁ l₂ : List (Nat × Nat)) (x : Nat)
    : cover (l₁ ++ l₂) x = cover l₁ x + cover l₂ x := by
  simp [cover]

theorem cover_perm {l₁ l₂ : List (Nat × Nat)} (h : l₁.Perm l₂) (x : Nat)
    : cover l₁ x = cover l₂ x :=
  (h.map _).sum_eq

theorem mark_eq_one {e : Nat × Nat} {x : Nat} (h1 : e.1 ≤ x) (h2 : x < e.1 + e.2)
    : mark e x = 1 :=
  if_pos ⟨h1, h2⟩

theorem mark_add (a m n x : Nat)
    : mark (a, m + n) x = mark (a, m) x + mark (a + m, n) x := by
  simp only [mark]
  split <;> split <;> split <;> omega

theorem mark_le_cover {e : Nat × Nat} {l : List (Nat × Nat)} (he : e ∈ l) (x : Nat)
    : mark e x ≤ cover l x := by
  induction l with
  | nil => cases he
  | cons f l ih =>
    rw [cover_cons]
    cases he with
    | head => omega
    | tail _ he =>
      have := ih he
      omega

theorem cover_pos_iff {l : List (Nat × Nat)} {x : Nat}
    : 0 < cover l x ↔ ∃ e ∈ l, e.1 ≤ x ∧ x < e.1 + e.2 := by
  induction l with
  | nil => simp
  | cons e l ih =>
    rw [cover_cons, List.exists_mem_cons_iff, ← ih, mark]
    split
    . next h => simp [h]
    . next h => simp [h]

theorem apart_of_mark {e f : Nat × Nat} (he : 0 < e.2) (hf : 0 < f.2)
    (h : ∀ x, mark e x + mark f x ≤ 1)
    : Apart e f := by
  by_contra hne
  simp only [Apart, not_or, not_le] at hne
  have := h (max e.1 f.1)
  rw [mark_eq_one (by omega) (by omega), mark_eq_one (by omega) (by omega)] at this
  omega

theorem pairwise_apart {l : List (Nat × Nat)} (hpos : ∀ e ∈ l, 0 < e.2)
    (h : ∀ x, cover l x ≤ 1)
    : l.Pairwise Apart := by
  induction l with
  | nil => exact .nil
  | cons e l ih =>
    simp only [cover_cons] at h
    refine .cons ?_ (ih (fun f hf => hpos f (by simp [hf])) (fun x => ?_))
    . intro f hf
      apply apart_of_mark (hpos e (by simp)) (hpos f (by simp [hf]))
      intro x
      have h1 := h x
      have h2 := mark_le_cover hf x
      omega
    . have := h x
      omega

theorem cover_concat_le_one {l : List (Nat × Nat)} {e : Nat × Nat} (h : ∀ x, cover l x ≤ 1)
    (habove : ∀ f ∈ l, f.1 + f.2 ≤ e.1) (x : Nat)
    : cover (l ++ [e]) x ≤ 1 := by
  rw [cover_append, cover_cons, cover_nil]
  by_cases hx : e.1 ≤ x ∧ x < e.1 + e.2
  . have hz : cover l x = 0 := by
      by_contra hne
      rcases cover_pos_iff.mp (Nat.pos_of_ne_zero hne) with ⟨f, hf, hf1, hf2⟩
      have := habove f hf
      omega
    rw [hz, mark, if_pos hx]
  . rw [mark, if_neg hx]
    exact h x

end Tiling
