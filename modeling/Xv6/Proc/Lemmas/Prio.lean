import Xv6.Proc.Lemmas.Setprio

/-!
The index into `ptable.priotable`, whatever state the queues are in.
-/

namespace Xv6
namespace Kernel

variable {ncpu : Nat} {s t : Kernel ncpu} {p q : ProcId}

structure InRange (r : Except Fault (Kernel ncpu)) : Prop where
  prioOk : ∀ t, r = .ok t → t.PrioOk
  index : r ≠ .error .outOfBounds

theorem InRange.ok (h : s.PrioOk) : InRange (.ok s) := by
  refine ⟨?_, by simp⟩
  intro t ht
  cases ht
  exact h

theorem InRange.error {f : Fault} (h : f ≠ .outOfBounds) : InRange (.error f : Except Fault (Kernel ncpu)) := by
  refine ⟨by simp, ?_⟩
  simpa using h

theorem InRange.bind {r : Except Fault (Kernel ncpu)} {f : Kernel ncpu → Except Fault (Kernel ncpu)}
    (h : InRange r) (hf : ∀ t, t.PrioOk → InRange (f t))
    : InRange (r >>= f) := by
  cases r with
  | error e =>
    apply InRange.error
    intro he
    apply h.index
    rw [he]
  | ok t => exact hf t (h.prioOk t rfl)

theorem InRange.foldlM {α : Type} {f : Kernel ncpu → α → Except Fault (Kernel ncpu)}
    (hf : ∀ t a, t.PrioOk → InRange (f t a)) (l : List α) (h : s.PrioOk)
    : InRange (l.foldlM f s) := by
  induction l generalizing s with
  | nil => exact .ok h
  | cons a l ih =>
    rw [List.foldlM_cons]
    apply (hf s a h).bind
    intro t ht
    exact ih ht

theorem priotableIdx_of_lt {prio : BitVec 32} (h : prio.toNat < NPRIO)
    : priotableIdx prio = .ok ⟨prio.toNat, h⟩ :=
  priotableIdx_eq rfl

theorem insertProc_inRange (h : s.PrioOk) {prio : BitVec 32} (hprio : prio.toNat < NPRIO)
    : InRange (s.insertProc p prio) := by
  unfold insertProc
  rw [priotableIdx_of_lt hprio]
  exact .ok (h.of_linksOnly (insertProcAt_linksOnly s p _))

theorem makeRunnable_inRange (h : s.PrioOk) (p : ProcId) : InRange (s.makeRunnable p) := by
  unfold makeRunnable
  have hprio : (s.modifyProc p ({ · with state := .runnable })).PrioOk := by
    apply h.modifyProc
    exact h p
  exact insertProc_inRange hprio (hprio p)

theorem wakeup1_inRange (h : s.PrioOk) (chan : Chan) : InRange (s.wakeup1 chan) := by
  unfold wakeup1
  apply InRange.foldlM _ _ h
  intro t p ht
  unfold wakeup1Step
  split
  . exact makeRunnable_inRange ht p
  . exact .ok ht

theorem kill_inRange (h : s.PrioOk) (pid : BitVec 32) : InRange ((s.kill pid).map Prod.snd) := by
  unfold Kernel.kill
  split
  . exact .ok h
  next p _ =>
    have hkilled : (s.modifyProc p ({ · with killed := true })).PrioOk := by
      apply h.modifyProc
      exact h p
    simp only
    split
    . have hrun := makeRunnable_inRange hkilled p
      generalize (s.modifyProc p ({ · with killed := true })).makeRunnable p = r at hrun ⊢
      cases r with
      | error e => exact hrun
      | ok t => exact hrun
    . exact .ok hkilled

theorem exit_inRange (h : s.PrioOk) (c : Fin ncpu) (p : ProcId) (status : BitVec 32)
    : InRange (s.exit c p status) := by
  unfold Kernel.exit
  have hstatus : (s.modifyProc p ({ · with status := status })).PrioOk := by
    apply h.modifyProc
    exact h p
  simp only
  split
  . exact .error (by simp)
  . apply (wakeup1_inRange hstatus _).bind
    intro t ht
    refine (InRange.foldlM ?_ _ ht).bind ?_
    . intro u r hu
      unfold exitChildStep
      split
      . have hparent : (u.modifyProc r ({ · with parent := u.initproc })).PrioOk := by
          apply hu.modifyProc
          exact hu r
        simp only
        split
        . exact wakeup1_inRange hparent _
        . exact .ok hparent
      . exact .ok hu
    . intro u hu
      apply InRange.ok
      apply PrioOk.setCpu
      apply hu.modifyProc
      exact hu p

theorem scheduler_inRange (h : s.PrioOk) (c : Fin ncpu) : InRange (s.scheduler c) := by
  unfold scheduler
  split
  . exact .ok h
  next p _ =>
    have hrun : ((s.setCpu c (some p)).modifyProc p ({ · with state := .running })).PrioOk := by
      apply PrioOk.modifyProc (h.setCpu c _)
      exact h p
    simp only
    unfold quitarProc
    rw [priotableIdx_of_lt (hrun p)]
    exact .ok (hrun.of_linksOnly (quitarProcAt_linksOnly _ p _))

theorem Step.inRange {op : Op ncpu} {r : Except Fault (Kernel ncpu)} (hstep : s.Step op r)
    (h : s.PrioOk)
    : InRange r := by
  cases hstep with
  | allocproc =>
    apply InRange.ok
    unfold Kernel.allocproc
    split
    . exact h
    next p _ =>
      have hprio : (s.modifyProc p
          ({ · with state := .embryo, pid := s.nextpid, prio := 5 })).PrioOk := by
        apply h.modifyProc
        exact (by decide : (5 : BitVec 32).toNat < NPRIO)
      exact hprio
  | @allocFail np _ => exact .ok (h.modifyProc (h np))
  | @userinitSetup p _ =>
    have hprio : (s.modifyProc p ({ · with prio := 5 })).PrioOk := by
      apply h.modifyProc
      exact (by decide : (5 : BitVec 32).toNat < NPRIO)
    exact .ok hprio
  | @forkCopy c np p _ _ => exact .ok (h.modifyProc (h p))
  | @enqueueNew np _ => exact makeRunnable_inRange h np
  | @yield c p _ =>
    apply (makeRunnable_inRange h p).bind
    intro t ht
    exact .ok (ht.setCpu c none)
  | @sleep c p chan _ => exact .ok (PrioOk.setCpu (h.modifyProc (h p)) c none)
  | @sleepResume c p _ => exact .ok (h.modifyProc (h p))
  | @wakeup chan => exact wakeup1_inRange h chan
  | @kill pid => exact kill_inRange h pid
  | @exit c p status _ => exact exit_inRange h c p status
  | @wait c p _ =>
    apply InRange.ok
    unfold Kernel.wait
    simp only
    split
    next q _ =>
      dsimp only
      apply h.modifyProc
      exact h q
    . split
      . exact h
      . exact PrioOk.setCpu (h.modifyProc (h p)) c none
  | @schedule c _ => exact scheduler_inRange h c

theorem setNewPrio.search_ne_outOfBounds (s : Kernel ncpu) (p : ProcId) (fuel : Nat)
    : ∀ anterior actual, search s p fuel anterior actual ≠ .error .outOfBounds := by
  induction fuel with
  | zero =>
    intro anterior actual
    unfold search
    simp
  | succ fuel ih =>
    intro anterior actual
    unfold search
    split
    . simp
    . split
      . simp
      . apply ih

theorem setNewPrio.relink_inRange (h : s.PrioOk) {prio : BitVec 32} (hprio : prio.toNat < NPRIO)
    (prt : Fin NPRIO) (anterior : ProcId)
    : InRange (relink s p prio prt anterior) := by
  unfold relink
  have hlink : (s.modifyProc anterior ({ · with sigprio := (s.proc p).sigprio })).PrioOk := by
    apply h.modifyProc
    exact h anterior
  generalize s.modifyProc anterior ({ · with sigprio := (s.proc p).sigprio }) = u at hlink ⊢
  have hlast : (if (u.proc anterior).sigprio = none then
      u.setPriotable prt { u.priotable prt with ultimo := (u.proc anterior).sigprio }
    else
      u).PrioOk := by
    split
    . exact hlink
    . exact hlink
  simp only
  generalize (if (u.proc anterior).sigprio = none then
      u.setPriotable prt { u.priotable prt with ultimo := (u.proc anterior).sigprio }
    else
      u) = v at hlast ⊢
  have hclear : (v.modifyProc p ({ · with sigprio := none })).PrioOk := by
    apply hlast.modifyProc
    exact hlast p
  have hnew : ((v.modifyProc p ({ · with sigprio := none })).modifyProc p
      ({ · with prio := prio })).PrioOk := by
    apply hclear.modifyProc
    exact hprio
  exact insertProc_inRange hnew (hnew p)

theorem setNewPrio_inRange (h : s.PrioOk) {prio : BitVec 32} (hprio : prio.toNat < NPRIO)
    (prt : Fin NPRIO)
    : InRange (s.setNewPrio p prio prt) := by
  unfold setNewPrio
  split
  . have hquit : (s.quitarProcAt p ⟨_, h p⟩).2.PrioOk :=
      h.of_linksOnly (quitarProcAt_linksOnly s p _)
    unfold quitarProc
    rw [priotableIdx_of_lt (h p)]
    refine (insertProc_inRange hquit hprio).bind ?_
    intro t ht
    apply InRange.ok
    apply ht.modifyProc
    exact hprio
  . split
    . exact .error (by simp)
    next primero _ =>
      have hsearch := setNewPrio.search_ne_outOfBounds s p (NPROC + 1) (s.proc primero).sigprio
        (some primero)
      generalize setNewPrio.search s p (NPROC + 1) (s.proc primero).sigprio (some primero) = r
        at hsearch ⊢
      cases r with
      | error f =>
        apply InRange.error
        intro hf
        apply hsearch
        rw [hf]
      | ok anterior =>
        cases anterior with
        | none => exact .error (by simp)
        | some anterior => exact setNewPrio.relink_inRange h hprio prt anterior

end Kernel

namespace SetprioSys

variable {ncpu : Nat} {s t : SetprioSys ncpu}

structure PriosOk (s : SetprioSys ncpu) : Prop where
  prioOk : s.kernel.PrioOk
  arg : ∀ p a, (s.pc p).arg = some a → a.toNat < NPRIO
  index : s.fault ≠ some .outOfBounds

theorem PriosOk.setPc (h : s.PriosOk) (cur : ProcId) {pc : SetprioPc}
    (hpc : ∀ a, pc.arg = some a → a.toNat < NPRIO)
    : (s.setPc cur pc).PriosOk := by
  refine ⟨h.prioOk, ?_, h.index⟩
  intro p a ha
  simp only [SetprioSys.setPc, Function.update_apply] at ha
  split at ha
  . exact hpc a ha
  . exact h.arg p a ha

theorem PriosOk.finish (h : s.PriosOk) {r : Except Fault (Kernel ncpu)} (hr : Kernel.InRange r)
    : (s.finish r).PriosOk := by
  cases r with
  | ok k => exact ⟨hr.prioOk k rfl, h.arg, h.index⟩
  | error f =>
    refine ⟨h.prioOk, h.arg, ?_⟩
    intro hf
    cases hf
    exact hr.index rfl

theorem Step.priosOk {e : SetprioEvent ncpu} (hstep : s.Step e t) (h : s.PriosOk) (hok : e.ArgOk)
    : t.PriosOk := by
  cases hstep with
  | op _ _ _ hop => exact h.finish (hop.inRange h.prioOk)
  | found =>
    apply h.setPc
    intro b hb
    cases hb
    exact hok
  | notFound => exact ⟨h.prioOk, h.arg, h.index⟩
  | @readState c u p a _ _ hpc =>
    apply h.setPc
    intro b hb
    apply h.arg u
    rw [hpc]
    split at hb
    . exact hb
    . exact hb
  | @readPrt c u p a q _ _ hpc =>
    apply h.setPc
    intro b hb
    apply h.arg u
    rw [hpc]
    exact hb
  | @readPrtOut c u p a f _ _ _ hf =>
    rw [Kernel.priotableIdx_of_lt (h.prioOk p)] at hf
    contradiction
  | @setNewPrio c u p a prt _ _ _ hpc =>
    have ha : a.toNat < NPRIO := by
      apply h.arg u
      rw [hpc]
      rfl
    refine PriosOk.finish (h.setPc u ?_) (Kernel.setNewPrio_inRange h.prioOk ha prt)
    intro b hb
    cases hb
  | @writePrio c u p a _ _ hpc =>
    have ha : a.toNat < NPRIO := by
      apply h.arg u
      rw [hpc]
      rfl
    refine PriosOk.finish (h.setPc u ?_) (.ok ?_)
    . intro b hb
      cases hb
    . apply h.prioOk.modifyProc
      exact ha

theorem prio_lt_of_eventRun {es : List (SetprioEvent ncpu)} (hstart : s.Start)
    (hprio : s.kernel.PrioOk) (hrun : EventRun (fun _ e => e.ArgOk) s es t)
    : (∀ p, (t.kernel.proc p).prio.toNat < NPRIO) ∧ t.fault ≠ some .outOfBounds := by
  have hpriosOk : s.PriosOk := by
    refine ⟨hprio, ?_, ?_⟩
    . simp [hstart.pc, SetprioPc.arg]
    . simp [hstart.fault]
  have ht : t.PriosOk := by
    apply hrun.invariant _ hpriosOk
    intro u e v hu hok hstep
    exact hstep.priosOk hu hok
  exact ⟨ht.prioOk, ht.index⟩

def yieldEvents (a : BitVec 32) : List (SetprioEvent 1) :=
  [.getProcbyPID 0 1 a, .readState 0, .writePrio 0, .op (.yield 0)]

theorem setprio_leaves_table
    : ¬ ∀ (s t : SetprioSys 1) (es : List (SetprioEvent 1)), s.Start → s.kernel.PrioOk →
        EventRun (fun _ _ => True) s es t →
          (∀ p, (t.kernel.proc p).prio.toNat < NPRIO) ∨ t.fault ≠ some .outOfBounds := by
  intro hsafe
  have hrun : EventRun (fun _ _ => True) forkedTwice (yieldEvents 10) _ :=
    .cons trivial (.found (u := 0) (p := 0) rfl rfl (by decide) rfl (by decide)) <|
    .cons trivial (.readState (u := 0) (p := 0) (a := 10) rfl (by decide) rfl) <|
    .cons trivial (.writePrio (u := 0) (p := 0) (a := 10) rfl (by decide) rfl) <|
    .cons trivial (.op rfl (fun _ => rfl) (fun _ _ hc => by cases hc) (.yield (p := 0) (by decide)))
      (.nil _)
  cases hsafe _ _ _ forkedTwice_start forkedTwice_prioOk hrun with
  | inl hprio => exact absurd (hprio 0) (by decide)
  | inr hfault => exact hfault rfl

theorem prio_lt_of_eventRun_forkedTwice
    : ∃ t, EventRun (fun _ e => e.ArgOk) forkedTwice (yieldEvents 9) t ∧
        (t.kernel.proc 0).prio = 9 ∧ (∀ p, (t.kernel.proc p).prio.toNat < NPRIO) ∧
          t.fault ≠ some .outOfBounds := by
  have hrun : EventRun (fun _ e => e.ArgOk) forkedTwice (yieldEvents 9) _ :=
    .cons (show 9 < NPRIO by decide)
      (.found (u := 0) (p := 0) rfl rfl (by decide) rfl (by decide)) <|
    .cons trivial (.readState (u := 0) (p := 0) (a := 9) rfl (by decide) rfl) <|
    .cons trivial (.writePrio (u := 0) (p := 0) (a := 9) rfl (by decide) rfl) <|
    .cons trivial (.op rfl (fun _ => rfl) (fun _ _ hc => by cases hc) (.yield (p := 0) (by decide)))
      (.nil _)
  refine ⟨_, hrun, by decide, ?_⟩
  exact prio_lt_of_eventRun forkedTwice_start forkedTwice_prioOk hrun

end SetprioSys
end Xv6
