import Mathlib.Logic.Function.Basic

/-!
Programs that change a state and can fail, with the rules of their pre- and postconditions. A program
that fails leaves the state as it is then.
-/

abbrev Prog (σ ε α : Type) := ExceptT ε (StateM σ) α

namespace Prog

variable {σ ε α β : Type}

def exec (x : Prog σ ε α) (s : σ) : Except ε α × σ := x s

def when (c : Prop) [Decidable c] (x : Prog σ ε Unit) : Prog σ ε Unit :=
  if c then x else pure ()

theorem exec_bind (x : Prog σ ε α) (f : α → Prog σ ε β) (s : σ)
    : exec (x >>= f) s =
        match exec x s with
        | (.ok a, t) => exec (f a) t
        | (.error e, t) => (.error e, t) := by
  show (ExceptT.bindCont f (x s).1 : StateM σ _) (x s).2 = _
  unfold exec
  rcases x s with ⟨a | a, t⟩
  . rfl
  . rfl

/--
From a state with `P`, the program ends in a state with `Q`, or fails in one with `E`.
-/
def Spec (P : σ → Prop) (x : Prog σ ε α) (Q : α → σ → Prop) (E : σ → Prop) : Prop :=
  ∀ s, P s →
    match exec x s with
    | (.ok a, t) => Q a t
    | (.error _, t) => E t

namespace Spec

variable {P P' : σ → Prop} {Q Q' : α → σ → Prop} {R : β → σ → Prop} {E E' : σ → Prop}
  {x : Prog σ ε α}

theorem exists_ok (h : Spec P x Q (fun _ => False)) {s : σ} (hs : P s)
    : ∃ a t, exec x s = (.ok a, t) ∧ Q a t := by
  have hspec := h s hs
  generalize exec x s = r at hspec ⊢
  rcases r with ⟨e | a, t⟩
  . exact hspec.elim
  . exact ⟨a, t, rfl, hspec⟩

theorem no_error (h : Spec P x Q E) (hE : ∀ s, ¬ E s) : Spec P x Q (fun _ => False) := by
  intro s hs
  have hspec := h s hs
  rcases hx : exec x s with ⟨e | a, t⟩
  . rw [hx] at hspec
    exact hE t hspec
  . rw [hx] at hspec
    exact hspec

theorem conseq (h : Spec P x Q E) (hP : ∀ s, P' s → P s) (hQ : ∀ a s, Q a s → Q' a s)
    (hE : ∀ s, E s → E' s)
    : Spec P' x Q' E' := by
  intro s hs
  have hspec := h s (hP s hs)
  rcases hx : exec x s with ⟨e | a, t⟩
  . rw [hx] at hspec
    exact hE t hspec
  . rw [hx] at hspec
    exact hQ a t hspec

theorem pre (h : Spec P x Q E) (hP : ∀ s, P' s → P s) : Spec P' x Q E :=
  h.conseq hP (fun _ _ => id) (fun _ => id)

theorem and {P' : σ → Prop} (h : Spec P x Q E) (h' : Spec P' x Q' E')
    : Spec (fun s => P s ∧ P' s) x (fun a s => Q a s ∧ Q' a s) (fun s => E s ∧ E' s) := by
  intro s hs
  have hspec := h s hs.1
  have hspec' := h' s hs.2
  generalize exec x s = r at hspec hspec' ⊢
  rcases r with ⟨e | a, t⟩
  . exact ⟨hspec, hspec'⟩
  . exact ⟨hspec, hspec'⟩

theorem bind {f : α → Prog σ ε β} (hx : Spec P x Q E) (hf : ∀ a, Spec (Q a) (f a) R E)
    : Spec P (x >>= f) R E := by
  intro s hs
  rw [exec_bind]
  have hspec := hx s hs
  generalize exec x s = r at hspec ⊢
  rcases r with ⟨e | a, t⟩
  . exact hspec
  . exact hf a t hspec

theorem pure {a : α} (h : ∀ s, P s → Q a s) : Spec P (Pure.pure a : Prog σ ε α) Q E :=
  h

theorem throw {e : ε} (h : ∀ s, P s → E s) : Spec P (MonadExcept.throw e : Prog σ ε α) Q E :=
  h

theorem get {R : σ → σ → Prop} (h : ∀ s, P s → R s s)
    : Spec P (MonadState.get : Prog σ ε σ) R E :=
  h

theorem modify {f : σ → σ} {R : Unit → σ → Prop} (h : ∀ s, P s → R () (f s))
    : Spec P (modify f : Prog σ ε Unit) R E :=
  h

theorem ite {c : Prop} [Decidable c] {y : Prog σ ε α} (hx : c → Spec P x Q E)
    (hy : ¬ c → Spec P y Q E)
    : Spec P (if c then x else y) Q E := by
  split
  next hc => exact hx hc
  next hc => exact hy hc

theorem when {c : Prop} [Decidable c] {x : Prog σ ε Unit} {R : Unit → σ → Prop}
    (hx : c → Spec P x R E) (hskip : ¬ c → ∀ s, P s → R () s)
    : Spec P (Prog.when c x) R E := by
  unfold Prog.when
  split
  next hc => exact hx hc
  next hc => exact .pure (hskip hc)

theorem exists_pre {ι : Type} {P : ι → σ → Prop} (h : ∀ i, Spec (P i) x Q E)
    : Spec (fun s => ∃ i, P i s) x Q E := by
  rintro s ⟨i, hi⟩
  exact h i s hi

theorem of_state (h : ∀ s₁, P s₁ → Spec (fun s => s = s₁) x Q E) : Spec P x Q E := by
  intro s hs
  exact h s hs s rfl

theorem of_eq (h : Spec P x Q E) {s₁ : σ} (hs₁ : P s₁) : Spec (fun s => s = s₁) x Q E := by
  rintro s rfl
  exact h s hs₁

theorem get_bind {f : σ → Prog σ ε β} (h : ∀ s₁, P s₁ → Spec (fun s => s = s₁) (f s₁) R E)
    : Spec P (MonadState.get >>= f) R E := by
  refine bind (Q := fun s₁ s => s = s₁ ∧ P s₁) (get fun s hs => ⟨rfl, hs⟩) ?_
  rintro s₁ s ⟨hs, hP⟩
  exact h s₁ hP s hs

theorem of_pre {c : Prop} (hP : ∀ s, P s → c) (h : c → Spec P x Q E) : Spec P x Q E := by
  intro s hs
  exact h (hP s hs) s hs

end Spec

-- The program keeps `I`, whether it fails or not.
def Keeps (I : σ → Prop) (x : Prog σ ε α) : Prop := Spec I x (fun _ => I) I

namespace Keeps

variable {I : σ → Prop} {x : Prog σ ε α}

theorem bind {f : α → Prog σ ε β} (hx : Keeps I x) (hf : ∀ a, Keeps I (f a))
    : Keeps I (x >>= f) :=
  Spec.bind hx hf

theorem pure (a : α) : Keeps I (Pure.pure a : Prog σ ε α) :=
  Spec.pure fun _ => id

theorem throw (e : ε) : Keeps I (MonadExcept.throw e : Prog σ ε α) :=
  Spec.throw fun _ => id

theorem get : Keeps I (MonadState.get : Prog σ ε σ) :=
  Spec.get (R := fun _ => I) fun _ => id

theorem modify {f : σ → σ} (h : ∀ s, I s → I (f s)) : Keeps I (modify f : Prog σ ε Unit) :=
  Spec.modify (R := fun _ => I) h

theorem ite {c : Prop} [Decidable c] {y : Prog σ ε α} (hx : Keeps I x) (hy : Keeps I y)
    : Keeps I (if c then x else y) :=
  Spec.ite (fun _ => hx) (fun _ => hy)

theorem when {c : Prop} [Decidable c] {x : Prog σ ε Unit} (hx : Keeps I x)
    : Keeps I (Prog.when c x) :=
  Spec.when (fun _ => hx) (fun _ _ => id)

end Keeps

end Prog
