import Mathlib.Data.List.Basic

/-!
A text as the lines that are complete, each ended by a separator, and what follows the last separator.
-/

namespace Lines

variable {α : Type u} [DecidableEq α] {sep : α}

theorem splitOn_ne_nil (sep : α) (l : List α) : l.splitOn sep ≠ [] :=
  List.splitOnP_ne_nil _ l

def done (sep : α) (l : List α) : List (List α) := (l.splitOn sep).dropLast

def rest (sep : α) (l : List α) : List α := (l.splitOn sep).getLast (splitOn_ne_nil sep l)

theorem splitOn_of_notMem {l : List α} (h : sep ∉ l) : l.splitOn sep = [l] := by
  unfold List.splitOn
  refine List.splitOnP_eq_singleton ?_
  intro a ha
  rw [beq_eq_false_iff_ne]
  rintro rfl
  exact h ha

theorem splitOn_line {x : List α} (h : sep ∉ x) (y : List α)
    : (x ++ sep :: y).splitOn sep = x :: y.splitOn sep := by
  have hx := splitOn_of_notMem h
  unfold List.splitOn at *
  have happend : (x ++ sep :: y).splitOnP (· == sep) = x.splitOnP (· == sep) ++ y.splitOnP (· == sep) :=
    List.splitOnP_append_cons x y (beq_self_eq_true sep)
  rw [happend, hx, List.singleton_append]

theorem done_of_notMem {l : List α} (h : sep ∉ l) : done sep l = [] := by
  rw [done, splitOn_of_notMem h]
  rfl

theorem rest_of_notMem {l : List α} (h : sep ∉ l) : rest sep l = l := by
  unfold rest
  simp only [splitOn_of_notMem h, List.getLast_singleton]

theorem done_line {x : List α} (h : sep ∉ x) (y : List α)
    : done sep (x ++ sep :: y) = x :: done sep y := by
  rw [done, splitOn_line h, List.dropLast_cons_of_ne_nil (splitOn_ne_nil sep y), done]

theorem rest_line {x : List α} (h : sep ∉ x) (y : List α) : rest sep (x ++ sep :: y) = rest sep y := by
  unfold rest
  simp only [splitOn_line h, List.getLast_cons (splitOn_ne_nil sep y)]

theorem induct (sep : α) {motive : List α → Prop} (last : ∀ l, sep ∉ l → motive l)
    (line : ∀ x y, sep ∉ x → motive y → motive (x ++ sep :: y)) (l : List α)
    : motive l := by
  induction hn : l.length using Nat.strongRecOn generalizing l with
  | ind n ih =>
    by_cases h : sep ∈ l
    . rcases List.eq_append_cons_of_mem h with ⟨x, y, rfl, hx⟩
      rw [List.length_append, List.length_cons] at hn
      exact line x y hx (ih y.length (by omega) y rfl)
    . exact last l h

theorem notMem_rest (l : List α) : sep ∉ rest sep l := by
  induction l using induct sep with
  | last l h =>
    rw [rest_of_notMem h]
    exact h
  | line x y hx ih =>
    rw [rest_line hx]
    exact ih

theorem length_rest_le (sep : α) (l : List α) : (rest sep l).length ≤ l.length := by
  induction l using induct sep with
  | last l h => exact Nat.le_of_eq (congrArg List.length (rest_of_notMem h))
  | line x y hx ih =>
    rw [rest_line hx, List.length_append, List.length_cons]
    omega

theorem length_rest_lt {l : List α} (h : sep ∈ l) : (rest sep l).length < l.length := by
  rcases List.eq_append_cons_of_mem h with ⟨x, y, rfl, hx⟩
  have hle := length_rest_le sep y
  rw [rest_line hx, List.length_append, List.length_cons]
  omega

theorem done_append (a b : List α) : done sep (a ++ b) = done sep a ++ done sep (rest sep a ++ b) := by
  induction a using induct sep with
  | last l h => rw [done_of_notMem h, rest_of_notMem h, List.nil_append]
  | line x y hx ih =>
    rw [List.append_assoc, List.cons_append, done_line hx, ih, done_line hx, rest_line hx,
      List.cons_append]

end Lines
