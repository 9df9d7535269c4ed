import Mathlib.Logic.Function.Basic

/-!
Allocation from a counter that only grows. `f` says which number each key has been given, 0 for none.
-/

structure Bump {K : Type u} (lo hi : Nat) (f : K → Nat) : Prop where
  pos : 0 < lo
  le : lo ≤ hi
  range : ∀ k, f k ≠ 0 → lo ≤ f k ∧ f k < hi
  inj : ∀ k l, f k ≠ 0 → f k = f l → k = l
  onto : ∀ b, lo ≤ b → b < hi → ∃ k, f k = b

namespace Bump

variable {K : Type u} {lo hi : Nat} {f : K → Nat}

theorem empty (hlo : 0 < lo) : Bump lo lo (fun _ : K => 0) where
  pos := hlo
  le := Nat.le_refl lo
  range := by
    intro k h
    contradiction
  inj := by
    intro k l h
    contradiction
  onto := by
    intro b h1 h2
    omega

theorem ne_hi (h : Bump lo hi f) (k : K) : f k ≠ hi := by
  have hpos := h.pos
  have hle := h.le
  by_cases hk : f k = 0
  . omega
  . have := h.range k hk
    omega

variable [DecidableEq K]

theorem assign (h : Bump lo hi f) {k : K} (hk : f k = 0)
    : Bump lo (hi + 1) (Function.update f k hi) where
  pos := h.pos
  le := Nat.le_succ_of_le h.le
  range := by
    intro l hl
    have hle := h.le
    by_cases hkl : l = k
    . subst hkl
      rw [Function.update_self]
      omega
    . rw [Function.update_of_ne hkl] at hl ⊢
      have := h.range l hl
      omega
  inj := by
    intro l m hl hlm
    by_cases hkl : l = k <;> by_cases hkm : m = k
    . rw [hkl, hkm]
    . rw [hkl, Function.update_self, Function.update_of_ne hkm] at hlm
      exact absurd hlm.symm (h.ne_hi m)
    . rw [hkm, Function.update_self, Function.update_of_ne hkl] at hlm
      exact absurd hlm (h.ne_hi l)
    . rw [Function.update_of_ne hkl] at hl hlm
      rw [Function.update_of_ne hkm] at hlm
      exact h.inj l m hl hlm
  onto := by
    intro b h1 h2
    by_cases hb : b = hi
    . exact ⟨k, by rw [Function.update_self, hb]⟩
    . rcases h.onto b h1 (by omega) with ⟨l, hl⟩
      have hpos := h.pos
      refine ⟨l, ?_⟩
      rw [Function.update_of_ne]
      . exact hl
      . rintro rfl
        omega

end Bump
