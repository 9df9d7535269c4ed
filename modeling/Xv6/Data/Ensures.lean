/-!
Rules of pre- and postconditions for computations that may fail. `Ensures T x Q`: what `x` returns
satisfies `Q`, and under `T` it does return. `Outcome E x Q`: `x` returns what satisfies `Q`, or
fails with an error that satisfies `E`.
-/

def Ensures {ε : Type u} {α : Type v} (T : Prop) (x : Except ε α) (Q : α → Prop) : Prop :=
  (∀ a, x = .ok a → Q a) ∧ (T → ∃ a, x = .ok a)

namespace Ensures

variable {ε : Type u} {α β : Type v} {T : Prop} {x : Except ε α} {Q R : α → Prop}

theorem ok {a : α} (h : Q a) : Ensures T (.ok a : Except ε α) Q := by
  refine ⟨?_, fun _ => ⟨a, rfl⟩⟩
  intro b hb
  cases hb
  exact h

theorem error {e : ε} (h : ¬T) : Ensures T (.error e : Except ε α) Q :=
  ⟨nofun, fun hT => absurd hT h⟩

theorem bind {f : α → Except ε β} {P : β → Prop} (hx : Ensures T x Q)
    (hf : ∀ a, Q a → Ensures T (f a) P)
    : Ensures T (x >>= f) P := by
  constructor
  . intro b hb
    cases x with
    | error e => cases hb
    | ok a => exact (hf a (hx.1 a rfl)).1 b hb
  . intro hT
    rcases hx.2 hT with ⟨a, ha⟩
    subst ha
    exact (hf a (hx.1 a rfl)).2 hT

theorem map {f : α → β} {P : β → Prop} (hx : Ensures T x Q) (hf : ∀ a, Q a → P (f a))
    : Ensures T (f <$> x) P := by
  constructor
  . intro b hb
    cases x with
    | error e => cases hb
    | ok a =>
      cases hb
      exact hf a (hx.1 a rfl)
  . intro hT
    rcases hx.2 hT with ⟨a, ha⟩
    subst ha
    exact ⟨f a, rfl⟩

theorem mono (hx : Ensures T x Q) (h : ∀ a, Q a → R a) : Ensures T x R :=
  ⟨fun a ha => h a (hx.1 a ha), hx.2⟩

theorem of_total (h : T → ∃ a, x = .ok a) : Ensures T x (fun _ => True) :=
  ⟨fun _ _ => trivial, h⟩

end Ensures

def Outcome {ε : Type u} {α : Type v} (E : ε → Prop) (x : Except ε α) (Q : α → Prop) : Prop :=
  match x with
  | .ok a => Q a
  | .error e => E e

namespace Outcome

variable {ε : Type u} {α β : Type v} {E : ε → Prop} {x : Except ε α} {Q R : α → Prop}

theorem bind {f : α → Except ε β} {P : β → Prop} (hx : Outcome E x Q)
    (hf : ∀ a, Q a → Outcome E (f a) P)
    : Outcome E (x >>= f) P := by
  cases x with
  | error e => exact hx
  | ok a => exact hf a hx

theorem map {f : α → β} {P : β → Prop} (hx : Outcome E x Q) (hf : ∀ a, Q a → P (f a))
    : Outcome E (f <$> x) P := by
  cases x with
  | error e => exact hx
  | ok a => exact hf a hx

theorem mono (hx : Outcome E x Q) (h : ∀ a, Q a → R a) : Outcome E x R := by
  cases x with
  | error e => exact hx
  | ok a => exact h a hx

end Outcome
