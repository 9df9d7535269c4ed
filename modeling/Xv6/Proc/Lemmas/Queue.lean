import Xv6.Data.Linked
import Xv6.Proc.Impl.Queue

open Linked

namespace Xv6
namespace Kernel

variable {ncpu : Nat}

/--
The pointers of `s` describe one list of processes for each priority level.
-/
structure Represents (s : Kernel ncpu) (L : Fin NPRIO → List ProcId) : Prop where
  queue : ∀ q, IsQueue s.sigprio (s.priotable q).primero (s.priotable q).ultimo (L q)
  disjoint : ∀ q r p, p ∈ L q → p ∈ L r → q = r

structure LinksOnly (s t : Kernel ncpu) : Prop where
  proc : ∀ p, t.proc p = { s.proc p with sigprio := (t.proc p).sigprio }
  cpu : t.cpu = s.cpu
  initproc : t.initproc = s.initproc

namespace LinksOnly

variable {s t u : Kernel ncpu}

theorem refl (s : Kernel ncpu) : LinksOnly s s where
  proc := by intros; rfl
  cpu := rfl
  initproc := rfl

theorem trans (h₁ : LinksOnly s t) (h₂ : LinksOnly t u) : LinksOnly s u where
  proc := by
    intro p
    rw [h₂.proc, h₁.proc]
  cpu := by rw [h₂.cpu, h₁.cpu]
  initproc := by rw [h₂.initproc, h₁.initproc]

theorem state_eq (h : LinksOnly s t) (p : ProcId) : (t.proc p).state = (s.proc p).state := by
  rw [h.proc]

theorem prio_eq (h : LinksOnly s t) (p : ProcId) : (t.proc p).prio = (s.proc p).prio := by
  rw [h.proc]

theorem setSigprio (s : Kernel ncpu) (p : ProcId) (v : Option ProcId)
    : LinksOnly s (s.modifyProc p ({ · with sigprio := v })) where
  proc := by
    intro q
    rw [modifyProc_proc]
    split
    . next h =>
      subst h
      rfl
    . rfl
  cpu := rfl
  initproc := rfl

theorem setPriotable (s : Kernel ncpu) (q : Fin NPRIO) (pt : Priotable)
    : LinksOnly s (s.setPriotable q pt) where
  proc := by intros; rfl
  cpu := rfl
  initproc := rfl

end LinksOnly

theorem priotableIdx_eq {prio : BitVec 32} {q : Fin NPRIO} (h : prio.toNat = q)
    : priotableIdx prio = .ok q := by
  unfold priotableIdx
  have : prio.toNat < NPRIO := by omega
  simp only [this, ↓reduceDIte]
  congr

theorem insertProc_eq (s : Kernel ncpu) (p : ProcId) {prio : BitVec 32} {q : Fin NPRIO}
    (h : prio.toNat = q)
    : s.insertProc p prio = .ok (s.insertProcAt p q) := by
  unfold insertProc
  rw [priotableIdx_eq h]
  rfl

theorem quitarProc_eq (s : Kernel ncpu) (p : ProcId) {prio : BitVec 32} {q : Fin NPRIO}
    (h : prio.toNat = q)
    : s.quitarProc p prio = .ok (s.quitarProcAt p q) := by
  unfold quitarProc
  rw [priotableIdx_eq h]
  rfl

theorem insertProcAt_linksOnly (s : Kernel ncpu) (p : ProcId) (q : Fin NPRIO)
    : LinksOnly s (s.insertProcAt p q) := by
  unfold insertProcAt
  split
  . apply LinksOnly.trans (.setPriotable s q _)
    apply LinksOnly.setSigprio
  . next tmp _ =>
    apply LinksOnly.trans (.setSigprio s tmp (some p))
    apply LinksOnly.trans (.setPriotable _ q _)
    apply LinksOnly.setSigprio

theorem quitarProcAt_linksOnly (s : Kernel ncpu) (p : ProcId) (q : Fin NPRIO)
    : LinksOnly s (s.quitarProcAt p q).2 := by
  unfold quitarProcAt
  dsimp
  split
  . apply LinksOnly.refl
  . apply LinksOnly.trans (.setPriotable s q _)
    apply LinksOnly.setSigprio

namespace Represents

variable {s t : Kernel ncpu} {L : Fin NPRIO → List ProcId}

theorem of_eq (h : s.Represents L) (hsig : t.sigprio = s.sigprio)
    (hprt : t.priotable = s.priotable)
    : t.Represents L where
  queue := by
    intro q
    rw [hsig, hprt]
    exact h.queue q
  disjoint := h.disjoint

theorem update_disjoint (h : s.Represents L) {q : Fin NPRIO} {l : List ProcId}
    (hl : ∀ p ∈ l, p ∈ L q ∨ ∀ r, p ∉ L r)
    : ∀ r₁ r₂ p, p ∈ Function.update L q l r₁ → p ∈ Function.update L q l r₂ → r₁ = r₂ := by
  intro r₁ r₂ p h₁ h₂
  have hdisj := h.disjoint
  simp only [Function.update_apply] at h₁ h₂
  split at h₁ <;> split at h₂ <;> grind

theorem insertProcAt (h : s.Represents L) {p : ProcId} (hp : ∀ r, p ∉ L r) (q : Fin NPRIO)
    : (s.insertProcAt p q).Represents (Function.update L q (L q ++ [p])) := by
  constructor
  . intro r
    have hr := h.queue r
    have hq := h.queue q
    unfold Kernel.insertProcAt
    split
    . next hult =>
      rw [hult] at hq
      rw [modifyProc_sigprio]
      by_cases hrq : r = q
      . subst hrq
        simpa using hq.push_nil
      . simpa [hrq] using hr.update_of_notMem (hp r)
    . next tmp hult =>
      rw [hult] at hq
      have htmp : tmp ∈ L q := List.mem_of_getLast? hq.last_eq.symm
      rw [modifyProc_sigprio]
      by_cases hrq : r = q
      . subst hrq
        simpa [modifyProc_sigprio] using hq.push (hp r)
      . have htmpr : tmp ∉ L r := by
          intro hmem
          exact hrq (h.disjoint _ _ _ hmem htmp)
        have := (hr.update_of_notMem (v := some p) htmpr).update_of_notMem (v := none) (hp r)
        simpa [modifyProc_sigprio, hrq] using this
  . apply h.update_disjoint
    intro r hr
    simp only [List.mem_append, List.mem_singleton] at hr
    cases hr with
    | inl hr => exact .inl hr
    | inr hr =>
      subst hr
      exact .inr hp

theorem quitarProcAt (h : s.Represents L) {p : ProcId} {q : Fin NPRIO} {l : List ProcId}
    (hl : L q = p :: l)
    : (s.quitarProcAt p q).2.Represents (Function.update L q l) := by
  have hq := h.queue q
  rw [hl] at hq
  have hfirst : (s.priotable q).primero = some p := hq.chain.1
  constructor
  . intro r
    simp only [Kernel.quitarProcAt, hfirst, ne_eq, not_true_eq_false, ↓reduceIte]
    rw [modifyProc_sigprio]
    by_cases hrq : r = q
    . subst hrq
      rw [hfirst] at hq
      simpa [Kernel.sigprio] using hq.pop
    . have hpr : p ∉ L r := by
        intro hmem
        exact hrq (h.disjoint r q p hmem (by simp [hl]))
      simpa [hrq] using (h.queue r).update_of_notMem hpr
  . apply h.update_disjoint
    intro r hr
    left
    simp [hl, hr]

end Represents

end Kernel
end Xv6
