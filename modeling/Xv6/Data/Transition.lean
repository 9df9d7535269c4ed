import Mathlib.Logic.Relation

/-!
Runs of a labelled transition system, with a condition that every step of the run has to meet.
-/

namespace Transition

variable {σ : Type u} {ε : Type v}

/--
`Run step ok s es t`: the events `es` lead from `s` to `t`, and each one meets `ok` in the state it
is taken in.
-/
inductive Run (step : σ → ε → σ → Prop) (ok : σ → ε → Prop) : σ → List ε → σ → Prop where
  | nil (s : σ) : Run step ok s [] s
  | cons {s t u : σ} {e : ε} {es : List ε} :
      ok s e → step s e t → Run step ok t es u → Run step ok s (e :: es) u

namespace Run

variable {step : σ → ε → σ → Prop} {ok : σ → ε → Prop}

theorem mono {ok' : σ → ε → Prop} {s t : σ} {es : List ε} (hok : ∀ s e, ok s e → ok' s e)
    (h : Run step ok s es t)
    : Run step ok' s es t := by
  induction h with
  | nil => exact .nil _
  | cons h1 h2 _ ih => exact .cons (hok _ _ h1) h2 ih

theorem invariant {P : σ → Prop} (hstep : ∀ s e t, P s → ok s e → step s e t → P t)
    {s t : σ} {es : List ε} (h : Run step ok s es t) (hs : P s)
    : P t := by
  induction h with
  | nil => exact hs
  | cons h1 h2 _ ih => exact ih (hstep _ _ _ hs h1 h2)

theorem of_foldlM {f : σ → ε → Option σ} [∀ s e, Decidable (ok s e)] {s t : σ} {es : List ε}
    (h : es.foldlM (fun s e => if ok s e then f s e else none) s = some t)
    : Run (fun s e t => f s e = some t) ok s es t := by
  induction es generalizing s with
  | nil =>
    cases h
    exact .nil _
  | cons e es ih =>
    rw [List.foldlM_cons] at h
    by_cases hok : ok s e
    . rw [if_pos hok] at h
      generalize hu : f s e = u at h
      cases u with
      | none => contradiction
      | some u => exact .cons hok hu (ih h)
    . rw [if_neg hok] at h
      contradiction

end Run

end Transition
