import Mathlib.Data.List.Nodup
import Mathlib.Logic.Function.Basic
import Mathlib.Order.Defs.PartialOrder

/-!
Circular singly linked lists, threaded through the nodes themselves, that are entered at any node.
-/

namespace Cycle

variable {α : Type u}

/--
From `a` the pointers visit the nodes of the list and arrive at `b`.
-/
def Path (next : α → α) : α → List α → α → Prop
  | a, [], b => next a = b
  | a, x :: l, b => next a = x ∧ Path next x l b

namespace Path

theorem append {next : α → α} {a x b : α} {l₁ l₂ : List α}
    : Path next a (l₁ ++ x :: l₂) b ↔ Path next a l₁ x ∧ Path next x l₂ b := by
  induction l₁ generalizing a with
  | nil => exact Iff.rfl
  | cons y l₁ ih =>
    simp only [List.cons_append, Path, ih, and_assoc]

theorem congr {next next' : α → α} {a b : α} {l : List α}
    (hnext : ∀ y ∈ a :: l, next' y = next y) (h : Path next a l b)
    : Path next' a l b := by
  induction l generalizing a with
  | nil => exact (hnext a (by simp)).trans h
  | cons x l ih =>
    refine ⟨(hnext a (by simp)).trans h.1, ?_⟩
    apply ih
    . intro y hy
      exact hnext y (List.mem_cons_of_mem a hy)
    . exact h.2

-- Where a path leads depends on its first node only through the pointer that node holds.
theorem of_next_eq {next next' : α → α} {a a' b : α} {l : List α} (ha : next' a' = next a)
    (hnext : ∀ y ∈ l, next' y = next y) (h : Path next a l b)
    : Path next' a' l b := by
  cases l with
  | nil => exact ha.trans h
  | cons x l => exact ⟨ha.trans h.1, h.2.congr hnext⟩

theorem update_of_notMem [DecidableEq α] {next : α → α} {a b c d : α} {l : List α}
    (hc : c ∉ a :: l) (h : Path next a l b)
    : Path (Function.update next c d) a l b := by
  apply congr _ h
  intro y hy
  rw [Function.update_of_ne]
  intro heq
  exact hc (heq ▸ hy)

theorem next_mem_of_ne_last {next : α → α} {a b x : α} {l : List α} (h : Path next a l b)
    (hx : x ∈ a :: l) (hne : x ≠ l.getLastD a)
    : next x ∈ l := by
  induction l generalizing a with
  | nil =>
    rcases List.mem_singleton.mp hx with rfl
    contradiction
  | cons y l ih =>
    rcases List.mem_cons.mp hx with rfl | hx
    . rw [h.1]
      simp
    . rw [List.getLastD_cons] at hne
      exact List.mem_cons_of_mem y (ih h.2 hx hne)

theorem ascends [Preorder α] {next : α → α} {a b x : α} {l : List α} (h : Path next a l b)
    (hsorted : (a :: l).Pairwise (· < ·)) (hx : x ∈ a :: l)
    : next x = b ∨ x < next x := by
  induction l generalizing a with
  | nil =>
    rcases List.mem_singleton.mp hx with rfl
    exact .inl h
  | cons y l ih =>
    rcases List.pairwise_cons.mp hsorted with ⟨hlt, hsorted⟩
    rcases List.mem_cons.mp hx with rfl | hx
    . rw [h.1]
      exact .inr (hlt y (by simp))
    . exact ih h.2 hsorted hx

theorem append_last {next : α → α} {a b : α} {l₁ l₂ : List α}
    : Path next a (l₁ ++ l₂) b
        ↔
      Path next a l₁ (next (l₁.getLastD a)) ∧ Path next (l₁.getLastD a) l₂ b := by
  induction l₁ generalizing a with
  | nil => simp [Path]
  | cons x l₁ ih =>
    simp only [List.cons_append, Path, ih, List.getLastD_cons, and_assoc]

theorem next_last {next : α → α} {a b : α} {l : List α} (h : Path next a l b)
    : next (l.getLastD a) = b := by
  induction l generalizing a with
  | nil => exact h
  | cons x l ih =>
    rw [List.getLastD_cons]
    exact ih h.2

theorem redirect [DecidableEq α] {next : α → α} {a b c : α} {l : List α}
    (hnd : (a :: l).Nodup) (h : Path next a l b)
    : Path (Function.update next (l.getLastD a) c) a l c := by
  induction l generalizing a with
  | nil => exact Function.update_self _ _ _
  | cons x l ih =>
    rw [List.getLastD_cons]
    refine ⟨?_, ih hnd.of_cons h.2⟩
    rw [Function.update_of_ne]
    . exact h.1
    . intro heq
      exact (List.nodup_cons.mp hnd).1 (heq ▸ List.getLastD_mem_cons)

end Path

/--
The node `h` followed by those of the list are a cycle without repetitions.
-/
structure IsCycle (next : α → α) (h : α) (l : List α) : Prop where
  path : Path next h l h
  nodup : (h :: l).Nodup

namespace IsCycle

theorem rotate {next : α → α} {h x : α} {l₁ l₂ : List α} (c : IsCycle next h (l₁ ++ x :: l₂))
    : IsCycle next x (l₂ ++ h :: l₁) := by
  rcases Path.append.mp c.path with ⟨h1, h2⟩
  refine ⟨Path.append.mpr ⟨h2, h1⟩, ?_⟩
  have hperm : List.Perm (h :: (l₁ ++ x :: l₂)) (x :: (l₂ ++ h :: l₁)) := by
    rw [← List.cons_append, ← List.cons_append]
    exact List.perm_append_comm
  exact hperm.nodup_iff.mp c.nodup

theorem enter {next : α → α} {h x : α} {l : List α} (c : IsCycle next h l) (hx : x ∈ h :: l)
    : ∃ l', IsCycle next x l' ∧ ∀ y, y ∈ x :: l' ↔ y ∈ h :: l := by
  rcases List.mem_cons.mp hx with rfl | hx
  . exact ⟨l, c, fun y => Iff.rfl⟩
  . rcases List.append_of_mem hx with ⟨l₁, l₂, rfl⟩
    refine ⟨_, c.rotate, ?_⟩
    intro y
    simp only [List.mem_cons, List.mem_append]
    tauto

-- From every node of the cycle the way to any other one is a path without a return.
theorem reach {next : α → α} {h x y : α} {l : List α} (c : IsCycle next h l)
    (hx : x ∈ h :: l) (hy : y ∈ h :: l) (hne : x ≠ y)
    : ∃ l', Path next x l' y ∧ y ∉ x :: l' ∧ ∀ z ∈ x :: l', z ∈ h :: l := by
  rcases c.enter hx with ⟨l', c', hiff⟩
  rcases List.mem_cons.mp ((hiff y).mpr hy) with rfl | hmem
  . contradiction
  . rcases List.append_of_mem hmem with ⟨l₁, l₂, rfl⟩
    refine ⟨l₁, (Path.append.mp c'.path).1, ?_, ?_⟩
    . intro hin
      have hnd := c'.nodup
      rw [← List.cons_append] at hnd
      exact List.disjoint_of_nodup_append hnd hin (by simp)
    . intro z hz
      apply (hiff z).mp
      rw [← List.cons_append]
      exact List.mem_append_left _ hz

theorem next_mem {next : α → α} {h x : α} {l : List α} (c : IsCycle next h l) (hx : x ∈ h :: l)
    : next x ∈ h :: l := by
  rcases c.enter hx with ⟨l', c', hiff⟩
  apply (hiff _).mp
  cases l' with
  | nil =>
    rw [show next x = x from c'.path]
    simp
  | cons y l' =>
    rw [c'.path.1]
    simp

theorem next_last {next : α → α} {h x : α} {l₁ l₂ : List α} (c : IsCycle next h (l₁ ++ x :: l₂))
    : next (l₁.getLastD h) = x :=
  (Path.append.mp c.path).1.next_last

theorem eq_last_of_next {next : α → α} {h x : α} {l : List α} (c : IsCycle next h l)
    (hx : x ∈ h :: l) (hnext : next x = h)
    : x = l.getLastD h := by
  by_contra hne
  have hmem := c.path.next_mem_of_ne_last hx hne
  rw [hnext] at hmem
  exact (List.nodup_cons.mp c.nodup).1 hmem

theorem eq_pred_of_next {next : α → α} {h x y : α} {l₁ l₂ : List α}
    (c : IsCycle next h (l₁ ++ x :: l₂)) (hy : y ∈ h :: (l₁ ++ x :: l₂)) (hnext : next y = x)
    : y = l₁.getLastD h := by
  have hmem : y ∈ x :: (l₂ ++ h :: l₁) := by
    simp only [List.mem_cons, List.mem_append] at hy ⊢
    tauto
  rw [c.rotate.eq_last_of_next hmem hnext]
  simp [List.getLastD_eq_getLast?, List.getLast?_cons]

theorem nodup_left {next : α → α} {h : α} {l₁ l₂ : List α} (c : IsCycle next h (l₁ ++ l₂))
    : (h :: l₁).Nodup :=
  (show ((h :: l₁) ++ l₂).Nodup from c.nodup).of_append_left

theorem last_notMem {next : α → α} {h : α} {l₁ l₂ : List α} (c : IsCycle next h (l₁ ++ l₂))
    : l₁.getLastD h ∉ l₂ := by
  have hnd := c.nodup
  rw [← List.cons_append] at hnd
  exact List.disjoint_of_nodup_append hnd List.getLastD_mem_cons

section

variable [DecidableEq α]

theorem insert {next : α → α} {h b : α} {l₁ l₂ : List α} (c : IsCycle next h (l₁ ++ l₂))
    (hb : b ∉ h :: (l₁ ++ l₂))
    : IsCycle
        (Function.update (Function.update next b (next (l₁.getLastD h))) (l₁.getLastD h) b)
        h
        (l₁ ++ b :: l₂) := by
  have hnd : (h :: (l₁ ++ b :: l₂)).Nodup := by
    have hperm : List.Perm (h :: (l₁ ++ b :: l₂)) (b :: h :: (l₁ ++ l₂)) :=
      (List.Perm.cons h List.perm_middle).trans (List.Perm.swap b h _)
    exact hperm.nodup_iff.mpr (List.nodup_cons.mpr ⟨hb, c.nodup⟩)
  rw [← List.cons_append] at hb
  rcases Path.append_last.mp c.path with ⟨h1, h2⟩
  have hlast : l₁.getLastD h ∈ h :: l₁ := List.getLastD_mem_cons
  have hba : b ≠ l₁.getLastD h := by
    intro heq
    exact hb (List.mem_append_left l₂ (heq ▸ hlast))
  refine ⟨Path.append.mpr ⟨?_, ?_⟩, hnd⟩
  . apply Path.redirect c.nodup_left
    apply Path.update_of_notMem _ h1
    intro hmem
    exact hb (List.mem_append_left l₂ hmem)
  . apply Path.of_next_eq _ _ h2
    . rw [Function.update_of_ne hba, Function.update_self]
    . intro y hy
      rw [Function.update_of_ne, Function.update_of_ne]
      . intro heq
        exact hb (List.mem_append_right _ (heq ▸ hy))
      . intro heq
        exact c.last_notMem (heq ▸ hy)

theorem remove {next : α → α} {h b : α} {l₁ l₂ : List α} (c : IsCycle next h (l₁ ++ b :: l₂))
    : IsCycle (Function.update next (l₁.getLastD h) (next b)) h (l₁ ++ l₂) := by
  rcases Path.append.mp c.path with ⟨h1, h2⟩
  have hsub : List.Sublist (h :: (l₁ ++ l₂)) (h :: (l₁ ++ b :: l₂)) := by
    apply List.Sublist.cons_cons
    exact (List.Sublist.refl l₁).append (List.sublist_cons_self b l₂)
  refine ⟨Path.append_last.mpr ⟨?_, ?_⟩, c.nodup.sublist hsub⟩
  . rw [Function.update_self]
    exact h1.redirect c.nodup_left
  . apply Path.of_next_eq (Function.update_self _ _ _) _ h2
    intro y hy
    rw [Function.update_of_ne]
    intro heq
    exact c.last_notMem (heq ▸ List.mem_cons_of_mem b hy)

end

end IsCycle

end Cycle
