import Mathlib.Algebra.Group.Pi.Basic
import Mathlib.Algebra.Ring.Int.Defs
import Mathlib.Data.Fintype.Card
import Mathlib.Tactic.SplitIfs

/-!
How many entries of a table of pointers point to a given object.
-/

namespace Count

section

variable {ι : Type u} {α : Type v} {g : ι → Option α} {a : α} {m n : Nat}

def Counted (g : ι → Option α) (a : α) (n : Nat) : Prop :=
  ∃ t : Finset ι, (∀ i, i ∈ t ↔ g i = some a) ∧ t.card = n

namespace Counted

theorem zero (h : ∀ i, g i ≠ some a) : Counted g a 0 := by
  refine ⟨∅, ?_, rfl⟩
  intro i
  simp [h i]

theorem pos (h : Counted g a n) {i : ι} (hi : g i = some a) : 0 < n := by
  rcases h with ⟨t, ht, hcard⟩
  rw [← hcard, Finset.card_pos]
  exact ⟨i, (ht i).2 hi⟩

theorem update [DecidableEq ι] [DecidableEq α] (h : Counted g a n) (i : ι) (x : Option α)
    (hm : m + (if g i = some a then 1 else 0) = n + (if x = some a then 1 else 0))
    : Counted (Function.update g i x) a m := by
  rcases h with ⟨t, ht, hcard⟩
  have hrest : ∀ j, j ≠ i → (j ∈ t.erase i ↔ Function.update g i x j = some a) := by
    intro j hj
    rw [Finset.mem_erase, ht j, Function.update_of_ne hj]
    exact ⟨And.right, And.intro hj⟩
  have herase : (t.erase i).card + (if g i = some a then 1 else 0) = n := by
    rw [← hcard]
    split
    next hi => exact Finset.card_erase_add_one ((ht i).2 hi)
    next hi =>
      rw [Finset.erase_eq_of_notMem fun hmem => hi ((ht i).1 hmem)]
      rfl
  by_cases hx : x = some a
  . refine ⟨insert i (t.erase i), ?_, ?_⟩
    . intro j
      rw [Finset.mem_insert]
      by_cases hj : j = i
      . subst hj
        simp [hx]
      . rw [← hrest j hj]
        simp [hj]
    . rw [if_pos hx] at hm
      rw [Finset.card_insert_of_notMem (Finset.notMem_erase i t)]
      omega
  . refine ⟨t.erase i, ?_, ?_⟩
    . intro j
      by_cases hj : j = i
      . subst hj
        simp [hx]
      . exact hrest j hj
    . rw [if_neg hx] at hm
      omega

end Counted

end

variable {ι : Type u} {α : Type v} [Fintype ι] [DecidableEq α]

def occ (g : ι → Option α) (a : α) : Nat := (Finset.univ.filter fun i => g i = some a).card

theorem occ_update [DecidableEq ι] (g : ι → Option α) (i : ι) (x : Option α) (a : α)
    : occ (Function.update g i x) a + (if g i = some a then 1 else 0) =
        occ g a + (if x = some a then 1 else 0) := by
  -- both sides count the entries other than `i`, and then the old and the new entry at `i`
  have hsplit : ∀ h : ι → Option α, occ h a =
      ((Finset.univ.erase i).filter fun j => h j = some a).card + (if h i = some a then 1 else 0) := by
    intro h
    unfold occ
    rw [← Finset.insert_erase (Finset.mem_univ i), Finset.filter_insert]
    split
    . rw [Finset.card_insert_of_notMem (by simp), Finset.insert_erase (Finset.mem_univ i)]
    . rw [Finset.insert_erase (Finset.mem_univ i), Nat.add_zero]
  have hrest : ((Finset.univ.erase i).filter fun j => Function.update g i x j = some a) =
      (Finset.univ.erase i).filter fun j => g j = some a := by
    apply Finset.filter_congr
    intro j hj
    rw [Function.update_of_ne (Finset.ne_of_mem_erase hj)]
  rw [hsplit g, hsplit (Function.update g i x), hrest, Function.update_self]
  omega

theorem occ_pos {g : ι → Option α} {i : ι} {a : α} (h : g i = some a) : 0 < occ g a := by
  unfold occ
  rw [Finset.card_pos]
  exact ⟨i, by simp [h]⟩

theorem occ_eq_zero {g : ι → Option α} {a : α} (h : ∀ i, g i ≠ some a) : occ g a = 0 := by
  unfold occ
  rw [Finset.card_eq_zero, Finset.filter_eq_empty_iff]
  intro i _
  exact h i

theorem exists_of_occ_pos {g : ι → Option α} {a : α} (h : 0 < occ g a) : ∃ i, g i = some a := by
  unfold occ at h
  rw [Finset.card_pos] at h
  rcases h with ⟨i, hi⟩
  exact ⟨i, by simpa using hi⟩

def refs (x : Option α) : α → Int := fun a => if x = some a then 1 else 0

@[simp]
theorem refs_none : refs (none : Option α) = 0 := by
  funext a
  simp [refs]

@[simp]
theorem refs_self (a : α) : refs (some a) a = 1 := by
  simp [refs]

theorem refs_of_ne {a b : α} (h : b ≠ a) : refs (some a) b = 0 := by
  have hne : ¬ a = b := fun heq => h heq.symm
  simp [refs, hne]

theorem refs_nonneg (x : Option α) (a : α) : 0 ≤ refs x a := by
  unfold refs
  split
  . decide
  . decide

theorem occ_update_refs [DecidableEq ι] (g : ι → Option α) (i : ι) (x : Option α) (a : α)
    : (occ (Function.update g i x) a : Int) = occ g a + refs x a - refs (g i) a := by
  have hcount := occ_update g i x a
  unfold refs
  generalize occ (Function.update g i x) a = n at hcount ⊢
  split_ifs at hcount ⊢
  . omega
  . omega
  . omega
  . omega

theorem occ_update_le [DecidableEq ι] (g : ι → Option α) (i : ι) {x : Option α} {a : α}
    (hx : x ≠ some a)
    : occ (Function.update g i x) a ≤ occ g a := by
  have hcount := occ_update_refs g i x a
  have hnonneg := refs_nonneg (g i) a
  have hzero : refs x a = 0 := by simp [refs, hx]
  omega

end Count
