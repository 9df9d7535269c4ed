import Mathlib.Algebra.BigOperators.Group.Finset.Basic
import Mathlib.Algebra.BigOperators.Group.Multiset.Basic
import Mathlib.Algebra.Order.BigOperators.Group.Finset
import Mathlib.Data.Multiset.UnionInter

/-!
Things that are spread over a family of owners. That the sum of what they own has no duplicates says
that each thing has one owner, who has it once.
-/

namespace Ledger

variable {ι α : Type*} {s : Finset ι} {f g : ι → Multiset α} {i j : ι} {x : α}

theorem eq_of_mem [DecidableEq ι] (h : (∑ i ∈ s, f i).Nodup) (hi : i ∈ s) (hj : j ∈ s)
    (hxi : x ∈ f i) (hxj : x ∈ f j)
    : i = j := by
  apply Classical.byContradiction
  intro hne
  rw [← Finset.add_sum_erase s f hi, Multiset.nodup_add] at h
  apply Multiset.disjoint_left.mp h.2.2 hxi
  rw [Multiset.mem_sum]
  exact ⟨j, Finset.mem_erase.mpr ⟨Ne.symm hne, hj⟩, hxj⟩

theorem sum_replace [DecidableEq ι] (hi : i ∈ s) (h : ∀ j ∈ s, j ≠ i → g j = f j)
    : ∑ j ∈ s, g j + f i = ∑ j ∈ s, f j + g i := by
  rw [← Finset.add_sum_erase s f hi, ← Finset.add_sum_erase s g hi]
  have hrest : ∑ j ∈ s.erase i, g j = ∑ j ∈ s.erase i, f j := by
    apply Finset.sum_congr rfl
    intro j hj
    rw [Finset.mem_erase] at hj
    exact h j hj.2 hj.1
  rw [hrest]
  ac_rfl

end Ledger
