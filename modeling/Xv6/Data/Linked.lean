import Mathlib.Data.List.Nodup
import Mathlib.Logic.Function.Basic

/-!
Singly linked lists that are threaded through the elements themselves: `next a` is the pointer that
`a` holds. A queue is such a list with a pointer to its first and one to its last element.
-/

namespace Linked

variable {α : Type u}

/--
Following `next` from `p` visits exactly the elements of the list, in order, and then stops.
-/
def Chain (next : α → Option α) : Option α → List α → Prop
  | p, [] => p = none
  | p, a :: l => p = some a ∧ Chain next (next a) l

instance Chain.decidable [DecidableEq α] (next : α → Option α)
    : (p : Option α) → (l : List α) → Decidable (Chain next p l)
  | p, [] => inferInstanceAs (Decidable (p = none))
  | p, a :: l =>
    have := Chain.decidable next (next a) l
    inferInstanceAs (Decidable (p = some a ∧ Chain next (next a) l))

def follow (next : α → Option α) : Nat → Option α → Option α
  | 0, p => p
  | n + 1, p => follow next n (p.bind next)

theorem follow_none (next : α → Option α) (n : Nat) : follow next n none = none := by
  induction n with
  | zero => rfl
  | succ n ih => exact ih

def Reaches (next : α → Option α) (p : Option α) (a : α) : Prop :=
  ∃ n, follow next n p = some a

namespace Chain

theorem head_eq {next : α → Option α} {p : Option α} {l : List α} (h : Chain next p l)
    : p = l.head? := by
  cases l with
  | nil => exact h
  | cons a l => exact h.1

theorem congr {next next' : α → Option α} {p : Option α} {l : List α}
    (hnext : ∀ a ∈ l, next' a = next a) (h : Chain next p l)
    : Chain next' p l := by
  induction l generalizing p with
  | nil => exact h
  | cons a l ih =>
    refine ⟨h.1, ?_⟩
    rw [hnext a (by simp)]
    apply ih
    . intro b hb
      apply hnext
      simp [hb]
    . exact h.2

theorem tail {next : α → Option α} {a : α} {l : List α} (h : Chain next (some a) (a :: l))
    : Chain next (next a) l :=
  h.2

theorem next_eq_of_append {next : α → Option α} {p : Option α} {a : α} {l₁ l₂ : List α}
    (h : Chain next p (l₁ ++ a :: l₂))
    : next a = l₂.head? := by
  induction l₁ generalizing p with
  | nil => exact head_eq h.2
  | cons b l₁ ih => exact ih h.2

theorem reaches_iff {next : α → Option α} {p : Option α} {l : List α} (h : Chain next p l) {a : α}
    : Reaches next p a ↔ a ∈ l := by
  induction l generalizing p with
  | nil =>
    rw [show p = none from h]
    simp [Reaches, follow_none]
  | cons b l ih =>
    have ih := ih h.2
    rw [List.mem_cons, ← ih]
    constructor
    . intro hreach
      rcases hreach with ⟨n, hn⟩
      rw [h.1] at hn
      cases n with
      | zero => exact .inl (Option.some.inj hn).symm
      | succ n => exact .inr ⟨n, hn⟩
    . intro hreach
      rw [h.1]
      cases hreach with
      | inl heq => exact ⟨0, by rw [heq]; rfl⟩
      | inr hreach =>
        rcases hreach with ⟨n, hn⟩
        exact ⟨n + 1, hn⟩

variable [DecidableEq α]

theorem update_of_notMem {next : α → Option α} {p : Option α} {l : List α} {a : α}
    {v : Option α} (ha : a ∉ l) (h : Chain next p l)
    : Chain (Function.update next a v) p l := by
  apply h.congr
  intro b hb
  rw [Function.update_of_ne]
  intro heq
  subst heq
  contradiction

theorem concat {next : α → Option α} {p : Option α} {l : List α} {t a : α}
    (h : Chain next p (l ++ [t])) (hnodup : (l ++ [t]).Nodup) (ha : a ∉ l ++ [t])
    : Chain (Function.update (Function.update next t (some a)) a none) p (l ++ [t] ++ [a]) := by
  induction l generalizing p with
  | nil =>
    have hta : t ≠ a := by
      intro heq
      simp [heq] at ha
    refine ⟨h.1, ?_, ?_⟩
    . rw [Function.update_of_ne hta]
      rw [Function.update_self]
    . simp [Chain]
  | cons b l ih =>
    simp only [List.cons_append, List.nodup_cons, List.mem_cons, not_or] at hnodup ha
    refine ⟨h.1, ?_⟩
    rw [Function.update_of_ne (Ne.symm ha.1)]
    rw [Function.update_of_ne]
    . exact ih h.2 hnodup.2 ha.2
    . intro heq
      apply hnodup.1
      simp [heq]

theorem unlink {next : α → Option α} {p : Option α} {l₁ l₂ : List α} {a b : α}
    (h : Chain next p (l₁ ++ b :: a :: l₂)) (hnodup : (l₁ ++ b :: a :: l₂).Nodup)
    : Chain (Function.update (Function.update next b (next a)) a none) p (l₁ ++ b :: l₂) := by
  induction l₁ generalizing p with
  | nil =>
    simp only [List.nil_append, List.nodup_cons, List.mem_cons, not_or] at hnodup
    refine ⟨h.1, ?_⟩
    rw [Function.update_of_ne hnodup.1.1]
    rw [Function.update_self]
    apply update_of_notMem hnodup.2.1
    apply update_of_notMem hnodup.1.2
    exact h.2.2
  | cons c l₁ ih =>
    have hcb : c ≠ b := by
      intro heq
      simp [heq] at hnodup
    have hca : c ≠ a := by
      intro heq
      simp [heq] at hnodup
    refine ⟨h.1, ?_⟩
    rw [Function.update_of_ne hca]
    rw [Function.update_of_ne hcb]
    exact ih h.2 (List.Nodup.of_cons hnodup)

end Chain

structure IsQueue (next : α → Option α) (first last : Option α) (l : List α) : Prop where
  chain : Chain next first l
  nodup : l.Nodup
  last_eq : last = l.getLast?

namespace IsQueue

theorem empty (next : α → Option α) : IsQueue next none none [] where
  chain := rfl
  nodup := List.nodup_nil
  last_eq := rfl

theorem last_none_iff {next : α → Option α} {first last : Option α} {l : List α}
    (h : IsQueue next first last l)
    : last = none ↔ l = [] := by
  rw [h.last_eq]
  exact List.getLast?_eq_none_iff

variable [DecidableEq α]

theorem update_of_notMem {next : α → Option α} {first last : Option α} {l : List α} {a : α}
    {v : Option α} (ha : a ∉ l) (h : IsQueue next first last l)
    : IsQueue (Function.update next a v) first last l where
  chain := h.chain.update_of_notMem ha
  nodup := h.nodup
  last_eq := h.last_eq

theorem push_nil {next : α → Option α} {first : Option α} {l : List α} {a : α}
    (h : IsQueue next first none l)
    : IsQueue (Function.update next a none) (some a) (some a) (l ++ [a]) := by
  have hl : l = [] := h.last_none_iff.mp rfl
  subst hl
  constructor <;> simp [Chain]

theorem push {next : α → Option α} {first : Option α} {l : List α} {t a : α}
    (h : IsQueue next first (some t) l) (ha : a ∉ l)
    : IsQueue (Function.update (Function.update next t (some a)) a none) first (some a) (l ++ [a]) := by
  have hlast := h.last_eq
  obtain ⟨l', hl'⟩ := List.getLast?_eq_some_iff.mp hlast.symm
  subst hl'
  constructor
  . exact h.chain.concat h.nodup ha
  . apply List.nodup_append.mpr
    refine ⟨h.nodup, by simp, ?_⟩
    intro x hx y hy heq
    simp only [List.mem_singleton] at hy
    subst heq hy
    contradiction
  . simp

theorem pop {next : α → Option α} {last : Option α} {l : List α} {a : α}
    (h : IsQueue next (some a) last (a :: l))
    : IsQueue (Function.update next a none) (next a) (if last = some a then none else last) l := by
  have hnodup := List.nodup_cons.mp h.nodup
  constructor
  . exact h.chain.tail.update_of_notMem hnodup.1
  . exact hnodup.2
  . rw [h.last_eq]
    cases hl : l.getLast? with
    | none =>
      have : l = [] := List.getLast?_eq_none_iff.mp hl
      simp [this]
    | some b =>
      have hb : b ∈ l := List.mem_of_getLast? hl
      have hba : b ≠ a := by
        intro heq
        subst heq
        exact hnodup.1 hb
      simp [List.getLast?_cons, hl, hba]

theorem unlink {next : α → Option α} {first last : Option α} {l₁ l₂ : List α} {a b : α}
    (h : IsQueue next first last (l₁ ++ b :: a :: l₂)) (hlast : last ≠ some a)
    : IsQueue (Function.update (Function.update next b (next a)) a none) first last
        (l₁ ++ b :: l₂) := by
  constructor
  . exact h.chain.unlink h.nodup
  . have := h.nodup
    simp only [List.nodup_append, List.nodup_cons, List.mem_cons] at this ⊢
    grind
  . have hl := h.last_eq
    cases l₂ with
    | nil => simp [hl] at hlast
    | cons c l₂ => simpa [List.getLast?_append, List.getLast?_cons_cons] using hl

end IsQueue

end Linked
