import Xv6.Proc.Lemmas.Life
import Xv6.Proc.Lemmas.Locks

/-!
The calls that take a pid find a process that is in use, as long as no fork that was given this pid
has failed.
-/

namespace Xv6

variable {ncpu : Nat} {pid : BitVec 32}

-- no entry that is not in use has the pid
def Family.InUse (pid : BitVec 32) (F : Family) : Prop :=
  ∀ p, (F p).state = .unused → (F p).pid ≠ pid

namespace Family.InUse

variable {F : Family}

theorem modify (h : F.InUse pid) {p : ProcId} {f : Life → Life}
    (hf : (f (F p)).state = .unused → (f (F p)).pid ≠ pid)
    : (F.modify p f).InUse pid := by
  intro r
  rw [Family.modify_apply]
  split
  . exact hf
  . exact h r

theorem wake (h : F.InUse pid) (chan : Chan) : (F.wake chan).InUse pid := by
  intro r hr
  rw [wake_state] at hr
  rw [wake_pid]
  split at hr
  . cases hr
  . exact h r hr

theorem pass (h : F.InUse pid) (init : Option ProcId) (p : ProcId) (l : List ProcId)
    : (F.pass init p l).InUse pid := by
  intro r hr
  rw [pass_state] at hr
  rw [pass_pid]
  split at hr
  . cases hr
  . exact h r hr

theorem exit (h : F.InUse pid) (init : Option ProcId) (p : ProcId) (status : BitVec 32)
    : (F.exit init p status).InUse pid := by
  have hstatus : (F.modify p ({ · with status := status })).InUse pid := h.modify (h p)
  have hpass := (hstatus.wake (Chan.ofProc (F.modify p ({ · with status := status }) p).parent)).pass
    init p (List.finRange NPROC)
  unfold Family.exit
  dsimp only
  generalize Family.pass _ init p (List.finRange NPROC) = G at hpass ⊢
  exact hpass.modify nofun

theorem kill (h : F.InUse pid) (i : BitVec 32) : (F.kill i).InUse pid := by
  unfold Family.kill
  split
  . exact h
  . next p _ =>
    apply h.modify
    dsimp only
    split
    . nofun
    . exact h p

end Family.InUse

namespace Kernel

variable {s t : Kernel ncpu} {p : ProcId}

theorem modifyProc_inUse (h : s.life.InUse pid) (p : ProcId) (f : Proc → Proc)
    (hf : (f (s.proc p)).state = .unused → (f (s.proc p)).pid ≠ pid)
    : (s.modifyProc p f).life.InUse pid := by
  intro r
  rw [life_state, life_pid, modifyProc_proc]
  split
  . exact hf
  . exact h r

def Spares (pid : BitVec 32) (s : Kernel ncpu) (op : Op ncpu) : Prop :=
  ∀ np, op = .allocFail np → (s.proc np).pid ≠ pid

theorem Step.inUse {op : Op ncpu} (hstep : s.Step op (.ok t)) (hpid : pid ≠ 0)
    (hspares : s.Spares pid op) (h : s.life.InUse pid)
    : t.life.InUse pid := by
  generalize hr : Except.ok t = r at hstep
  cases hstep with
  | allocproc =>
    cases hr
    cases hnp : s.allocproc.1 with
    | none =>
      unfold Kernel.allocproc at hnp ⊢
      split at hnp
      . exact h
      . cases hnp
    | some np =>
      rw [(allocproc_life hnp).2.2]
      exact h.modify nofun
  | @allocFail np =>
    cases hr
    apply modifyProc_inUse h np
    intro _
    exact hspares np rfl
  | @userinitSetup p =>
    cases hr
    exact modifyProc_inUse h p ({ · with prio := 5 }) (h p)
  | @forkCopy _ np p =>
    cases hr
    exact modifyProc_inUse h np
      ({ · with parent := some p, prio := (s.proc p).prio }) (h np)
  | enqueueNew =>
    rw [(makeRunnable_yields s _).life t hr.symm]
    exact h.modify nofun
  | yield =>
    rw [(yield_yields s _ _).life t hr.symm]
    exact h.modify nofun
  | @sleep _ p chan =>
    cases hr
    exact modifyProc_inUse h p ({ · with chan := chan, state := .sleeping }) nofun
  | @sleepResume _ p =>
    cases hr
    exact modifyProc_inUse h p ({ · with chan := .null }) (h p)
  | wakeup =>
    rw [(wakeup1_yields s _).life t hr.symm]
    exact h.wake _
  | kill =>
    rw [(kill_yields s _).life t hr.symm]
    exact h.kill _
  | exit =>
    rw [(exit_yields s _ _ _).life t hr.symm]
    exact h.exit _ _ _
  | @wait _ p =>
    cases hr
    unfold Kernel.wait
    dsimp only
    split
    . next q _ =>
      dsimp only
      apply modifyProc_inUse h q
      intro _ hzero
      exact hpid hzero.symm
    . split
      . exact h
      . exact modifyProc_inUse h p ({ · with chan := .proc p, state := .sleeping }) nofun
  | schedule =>
    cases scheduler_yields s _ with
    | inl hidle =>
      rw [hidle.life t hr.symm]
      exact h
    | inr hruns =>
      rcases hruns with ⟨p, _, hp⟩
      rw [hp.life t hr.symm]
      exact h.modify nofun

abbrev SparingRun (pid : BitVec 32) (s : Kernel ncpu) (ops : List (Op ncpu)) (t : Kernel ncpu)
    : Prop :=
  Transition.Run (fun s op t => Step s op (.ok t)) (Spares pid) s ops t

theorem SparingRun.inUse {ops : List (Op ncpu)} (hrun : SparingRun pid boot ops t) (hpid : pid ≠ 0)
    : t.life.InUse pid := by
  apply hrun.invariant (P := fun s => s.life.InUse pid)
  . intro u op v hu hspares hstep
    exact hstep.inUse hpid hspares hu
  . intro p _ hzero
    exact hpid hzero.symm

def Only (p : ProcId) (s t : Kernel ncpu) : Prop :=
  ∀ x, x ≠ p → t.proc x = { s.proc x with sigprio := (t.proc x).sigprio }

theorem Only.trans {u : Kernel ncpu} (h₁ : Only p s t) (h₂ : Only p t u) : Only p s u := by
  intro x hx
  rw [h₂ x hx, h₁ x hx]

theorem LinksOnly.only (h : LinksOnly s t) (p : ProcId) : Only p s t :=
  fun x _ => h.proc x

theorem modifyProc_only (s : Kernel ncpu) (p : ProcId) (f : Proc → Proc)
    : Only p s (s.modifyProc p f) := by
  intro x hx
  rw [modifyProc_proc_ne s p x f hx]

theorem insertProc_only {prio : BitVec 32} {x : ProcId} (h : s.insertProc x prio = .ok t)
    (p : ProcId)
    : Only p s t := by
  unfold insertProc at h
  rcases Fold.bind_eq_ok h with ⟨q, hq, h⟩
  cases h
  exact (insertProcAt_linksOnly s x q).only p

theorem makeRunnable_only (h : s.makeRunnable p = .ok t) : Only p s t :=
  (modifyProc_only s p _).trans (insertProc_only h p)

theorem kill_only {i : BitVec 32} {r : Int} (hfind : s.findPid i = some p)
    (h : s.kill i = .ok (r, t))
    : r = 0 ∧ Only p s t := by
  unfold kill at h
  rw [hfind] at h
  dsimp only at h
  split at h
  . rcases Fold.bind_eq_ok h with ⟨u, ht, h⟩
    cases h
    exact ⟨rfl, (modifyProc_only s p _).trans (makeRunnable_only ht)⟩
  . cases h
    exact ⟨rfl, modifyProc_only s p _⟩

theorem relink_only {a : BitVec 32} {prt : Fin NPRIO} {anterior : ProcId}
    (h : setNewPrio.relink s p a prt anterior = .ok t)
    : Only p s t := by
  unfold setNewPrio.relink at h
  dsimp only at h
  refine Only.trans ?_ (insertProc_only h p)
  refine Only.trans ?_ (modifyProc_only _ p _)
  refine Only.trans ?_ (modifyProc_only _ p _)
  have hanterior := LinksOnly.setSigprio s anterior (s.proc p).sigprio
  split
  . exact (hanterior.trans (.setPriotable _ prt _)).only p
  . exact hanterior.only p

theorem setNewPrio_only {a : BitVec 32} {prt : Fin NPRIO} (h : s.setNewPrio p a prt = .ok t)
    : Only p s t := by
  unfold setNewPrio at h
  split at h
  . unfold quitarProc at h
    rcases Fold.bind_eq_ok h with ⟨r, hr, h⟩
    rcases Fold.bind_eq_ok hr with ⟨q, hq, hr⟩
    cases hr
    rcases Fold.bind_eq_ok h with ⟨u, ht, h⟩
    cases h
    refine Only.trans ?_ (modifyProc_only u p _)
    exact ((quitarProcAt_linksOnly s p q).only p).trans (insertProc_only ht p)
  . split at h
    . cases h
    . next primero _ =>
      rcases Fold.bind_eq_ok h with ⟨o, hsearch, h⟩
      cases o with
      | none => cases h
      | some anterior => exact relink_only h

theorem findPid_some {i : BitVec 32} (h : s.findPid i = some p) : (s.proc p).pid = i := by
  simpa using List.find?_some h

theorem findPid_none {i : BitVec 32} (h : s.findPid i = none) (p : ProcId) : (s.proc p).pid ≠ i := by
  have hp := List.find?_eq_none.mp h p (List.mem_finRange p)
  simpa using hp

end Kernel

def World.Idle (w : World ncpu) : Prop :=
  ∀ i k, w.table i k = k

namespace LockSys

variable {T : Prop} {w : World ncpu} {s : LockSys ncpu} {n : Int} {p : ProcId}

theorem unlocked_idle (hw : w.Idle) (s : LockSys ncpu) : (s.unlocked w).kernel = s.kernel := by
  rw [unlocked_kernel, hw]

theorem getProcbyPID_idle (hw : w.Idle) (hn : 0 ≤ n) (h : Free n s) (pid : BitVec 32)
    : Ensures T (s.getProcbyPID w pid) (fun r =>
        r.1 = s.kernel.findPid pid ∧ r.2.kernel = s.kernel ∧ (r.1 ≠ none → Free n r.2)) := by
  have htable : s.table w 1 = s.kernel := hw _ _
  apply (getProcbyPID_ensures hn h pid).mono
  rintro r ⟨hr, hk, _, _, hfree⟩
  rw [htable] at hr hk
  exact ⟨hr, hk, hfree⟩

theorem kill_idle (hw : w.Idle) (hn : 0 ≤ n) (h : Free n s) (hprio : s.kernel.PrioOk)
    (pid : BitVec 32)
    : ∃ r k t, s.kernel.kill pid = .ok (r, k) ∧ s.kill w pid = .ok (r, t) ∧ t.kernel = k := by
  rcases Kernel.kill_total hprio pid with ⟨⟨r, k⟩, hk⟩
  have hkill : Ensures True (s.kill w pid) (fun x => x.1 = r ∧ x.2.kernel = k) := by
    unfold kill
    apply (acquire_ensures hn h).bind
    rintro t ⟨ht, htk, _⟩
    rw [hw] at htk
    rw [htk, hk]
    apply (release_same hn (ht.setKernel k)).bind
    rintro u ⟨_, huk, _⟩
    exact .ok ⟨rfl, huk⟩
  rcases hkill.2 trivial with ⟨⟨r', t⟩, ht⟩
  rcases hkill.1 _ ht with ⟨rfl, htk⟩
  exact ⟨r', k, t, hk, ht, htk⟩

theorem setNewPrio_idle (hw : w.Idle) (hn : 0 ≤ n) (h : Free n s) (p : ProcId) (a : BitVec 32)
    : Ensures False (s.setNewPrio w p a) (fun t => Kernel.Only p s.kernel t.kernel) := by
  unfold setNewPrio
  apply (Ensures.of_total nofun).bind
  intro prt _
  apply (acquire_ensures hn h).bind
  rintro t ⟨ht, htk, _⟩
  rw [hw] at htk
  have honly : Ensures False (t.kernel.setNewPrio p a prt) (Kernel.Only p t.kernel) :=
    ⟨fun k hk => Kernel.setNewPrio_only hk, nofun⟩
  apply honly.bind
  intro k hk
  apply (release_same hn (ht.setKernel k)).mono
  rintro u ⟨_, huk, _⟩
  rw [huk, ← htk]
  exact hk

theorem sysSetprio_idle (hw : w.Idle) (hn : 0 ≤ n) (h : Free n s) {pid : BitVec 32}
    (hfind : s.kernel.findPid pid = some p) (a : BitVec 32)
    : Ensures False (s.sysSetprio w (some pid) (some a))
        (fun r => Kernel.Only p s.kernel r.2.kernel) := by
  unfold sysSetprio
  apply (getProcbyPID_idle hw hn h pid).bind
  rintro ⟨_, t⟩ ⟨rfl, htk, ht⟩
  dsimp only at htk ht ⊢
  rw [hfind] at ht ⊢
  have hfree := ((ht nofun).unlocked (w := w)).unlocked (w := w)
  have hkernel : ((t.unlocked w).unlocked w).kernel = s.kernel := by
    rw [unlocked_idle hw, unlocked_idle hw, htk]
  dsimp only
  split
  . apply (setNewPrio_idle hw hn hfree p a).bind
    intro u hu
    refine .ok ?_
    dsimp only
    rw [unlocked_idle hw, ← hkernel]
    exact hu
  . refine .ok ?_
    dsimp only
    rw [unlocked_idle hw]
    show Kernel.Only p s.kernel
      (((t.unlocked w).unlocked w).kernel.modifyProc p ({ · with prio := a }))
    rw [hkernel]
    exact Kernel.modifyProc_only s.kernel p _

theorem phmemLoop_idle (hw : w.Idle) (p : ProcId) (fuel : Nat) (a count : BitVec 32)
    : Ensures False (phmemLoop w p fuel a count s) (fun r => r.2.kernel = s.kernel) := by
  induction fuel generalizing s a count with
  | zero => exact .error nofun
  | succ fuel ih =>
    have hrest : ∀ a count,
        Ensures False (phmemLoop w p fuel a count (s.unlocked w)) (fun r => r.2.kernel = s.kernel) := by
      intro a count
      apply (ih a count).mono
      intro r hr
      rw [hr, unlocked_idle hw]
    unfold phmemLoop
    dsimp only
    split
    . split
      . apply (Ensures.of_total nofun).bind
        intro pte _
        exact hrest _ _
      . exact hrest _ _
    . exact .ok (unlocked_idle hw s)

theorem sysPhmem_idle (hw : w.Idle) (hn : 0 ≤ n) (h : Free n s) {pid : BitVec 32}
    (hfind : s.kernel.findPid pid = some p) (fuel : Nat)
    : Ensures False (s.sysPhmem w fuel (some pid)) (fun r =>
        r.2.kernel = s.kernel ∧
          ∃ t count, phmemLoop w p fuel 0 0 t = .ok (count, r.2) ∧ r.1 = (count * 4096).sdiv 1024) := by
  unfold sysPhmem
  apply (getProcbyPID_idle hw hn h pid).bind
  rintro ⟨_, t⟩ ⟨rfl, htk, _⟩
  dsimp only at htk ⊢
  rw [hfind]
  have hloop : Ensures False (phmemLoop w p fuel 0 0 t) (fun r =>
      r.2.kernel = t.kernel ∧ phmemLoop w p fuel 0 0 t = .ok r) :=
    ⟨fun r hr => ⟨(phmemLoop_idle hw p fuel 0 0).1 r hr, hr⟩, nofun⟩
  apply hloop.bind
  rintro ⟨count, u⟩ ⟨hu, hrun⟩
  exact .ok ⟨hu.trans htk, t, count, hrun, rfl⟩

structure Hits (w : World ncpu) (s : LockSys ncpu) (pid : BitVec 32) (p : ProcId) : Prop where
  live : (s.kernel.proc p).state ≠ .unused
  has_pid : (s.kernel.proc p).pid = pid
  kill : ∃ t, s.kill w pid = .ok (0, t) ∧ Kernel.Only p s.kernel t.kernel
  getprio : ∃ t, s.sysGetprio w (some pid) = .ok ((s.kernel.proc p).prio, t) ∧ t.kernel = s.kernel
  setprio : ∀ a r t, s.sysSetprio w (some pid) (some a) = .ok (r, t) →
    Kernel.Only p s.kernel t.kernel
  phmem : ∀ fuel r t, s.sysPhmem w fuel (some pid) = .ok (r, t) → t.kernel = s.kernel ∧
    ∃ u count, phmemLoop w p fuel 0 0 u = .ok (count, t) ∧ r = (count * 4096).sdiv 1024

structure Misses (w : World ncpu) (s : LockSys ncpu) (pid : BitVec 32) : Prop where
  none_live : ∀ p, (s.kernel.proc p).state ≠ .unused → (s.kernel.proc p).pid ≠ pid
  kill : ∃ t, s.kill w pid = .ok (-1, t) ∧ t.kernel = s.kernel
  getprio : ∃ t, s.sysGetprio w (some pid) = .ok (-1, t) ∧ t.kernel = s.kernel
  setprio : ∀ a, ∃ t, s.sysSetprio w (some pid) (some a) = .ok (-1, t) ∧ t.kernel = s.kernel
  phmem : ∀ fuel, ∃ t, s.sysPhmem w fuel (some pid) = .ok (-1, t) ∧ t.kernel = s.kernel

theorem hits_of_findPid (hw : w.Idle) (hn : 0 ≤ n) (h : Free n s) (hprio : s.kernel.PrioOk)
    {pid : BitVec 32} (hlive : (s.kernel.proc p).state ≠ .unused)
    (hfind : s.kernel.findPid pid = some p)
    : Hits w s pid p where
  live := hlive
  has_pid := Kernel.findPid_some hfind
  kill := by
    rcases kill_idle hw hn h hprio pid with ⟨r, k, t, hk, ht, htk⟩
    rcases Kernel.kill_only hfind hk with ⟨rfl, honly⟩
    exact ⟨t, ht, htk ▸ honly⟩
  getprio := by
    rcases (getProcbyPID_idle (T := True) hw hn h pid).2 trivial with ⟨⟨o, t⟩, ht⟩
    rcases (getProcbyPID_idle (T := True) hw hn h pid).1 _ ht with ⟨ho, htk, _⟩
    dsimp only at ho htk
    rw [hfind] at ho
    subst ho
    refine ⟨t.unlocked w, ?_, (unlocked_idle hw t).trans htk⟩
    unfold sysGetprio
    dsimp only
    rw [ht]
    show Except.ok (((t.unlocked w).kernel.proc p).prio, t.unlocked w) = _
    rw [unlocked_idle hw, htk]
  setprio := by
    intro a r t ht
    exact (sysSetprio_idle hw hn h hfind a).1 _ ht
  phmem := by
    intro fuel r t ht
    exact (sysPhmem_idle hw hn h hfind fuel).1 _ ht

theorem misses_of_findPid (hw : w.Idle) (hn : 0 ≤ n) (h : Free n s) (hprio : s.kernel.PrioOk)
    {pid : BitVec 32} (hfind : s.kernel.findPid pid = none)
    : Misses w s pid := by
  rcases (getProcbyPID_idle (T := True) hw hn h pid).2 trivial with ⟨⟨o, t⟩, ht⟩
  rcases (getProcbyPID_idle (T := True) hw hn h pid).1 _ ht with ⟨ho, htk, _⟩
  dsimp only at ho htk
  rw [hfind] at ho
  subst ho
  constructor
  case none_live =>
    intro p _
    exact Kernel.findPid_none hfind p
  case kill =>
    rcases kill_idle hw hn h hprio pid with ⟨r, k, u, hk, hu, huk⟩
    unfold Kernel.kill at hk
    rw [hfind] at hk
    cases hk
    exact ⟨u, hu, huk⟩
  case getprio =>
    refine ⟨t, ?_, htk⟩
    unfold sysGetprio
    dsimp only
    rw [ht]
    rfl
  case setprio =>
    intro a
    refine ⟨t, ?_, htk⟩
    unfold sysSetprio
    dsimp only
    rw [ht]
    rfl
  case phmem =>
    intro fuel
    refine ⟨t, ?_, htk⟩
    unfold sysPhmem
    dsimp only
    rw [ht]
    rfl

/--
In a table that fork, exit, wait, kill and the scheduler lead to, a pid that no failed fork was given
is the pid of a process in use, or the calls find nothing.
-/
theorem lookup_by_live_pid (w : World ncpu) (hw : w.Idle) (s : LockSys ncpu) (hs : s.Entry)
    (pid : BitVec 32) (hpid : pid ≠ 0) (ops : List (Op ncpu))
    (hrun : Kernel.SparingRun pid Kernel.boot ops s.kernel)
    : (∃ p, Hits w s pid p) ∨ Misses w s pid := by
  have hfree : Free (s.flags s.cpu).ncli s := ⟨⟨rfl, hs.interrupts⟩, hs.lock⟩
  have hprio : s.kernel.PrioOk := by
    have hplain : Kernel.OpRun Kernel.boot ops s.kernel := hrun.mono fun _ _ _ => trivial
    exact (hplain.ok Kernel.boot_wellFormed Kernel.boot_prioOk).2
  have hused := hrun.inUse hpid
  cases hfind : s.kernel.findPid pid with
  | none => exact .inr (misses_of_findPid hw hs.ncli hfree hprio hfind)
  | some p =>
    refine .inl ⟨p, hits_of_findPid hw hs.ncli hfree hprio ?_ hfind⟩
    intro hunused
    exact hused p hunused (Kernel.findPid_some hfind)

theorem lookup_by_live_pid_started
    : (∃ p, Hits quiet started 1 p) ∨ Misses quiet started 1 :=
  lookup_by_live_pid quiet (fun _ _ => rfl) started started_entry 1 (by decide) [.allocproc]
    (.cons nofun .allocproc (.nil _))

def forkFails : List (Op 1) :=
  [.allocproc, .userinitSetup 0, .enqueueNew 0, .schedule 0, .allocproc, .allocFail 1]

/--
The first process runs, and its fork fails for want of a kernel stack. kill(2) then finds the entry of
that fork, and kill(0) one that was never used.
-/
theorem kill_finds_unused
    : ∃ s : LockSys 1, Kernel.OpRun Kernel.boot forkFails s.kernel ∧ s.Entry ∧
        s.kernel.Executes 0 0 ∧ (∀ p, p ≠ 0 → (s.kernel.proc p).state = .unused) ∧
        (∃ t, s.kill quiet 2 = .ok (0, t) ∧ (t.kernel.proc 1).killed = true ∧
          (s.kernel.proc 1).killed = false) ∧
        (∃ t, s.sysGetprio quiet (some 2) = .ok (5, t)) ∧
        ∃ t, s.kill quiet 0 = .ok (0, t) ∧ (t.kernel.proc 2).killed = true := by
  have hrun : Kernel.OpRun Kernel.boot forkFails _ :=
    .cons trivial .allocproc <|
    .cons trivial (.userinitSetup (by decide)) <|
    .cons trivial (.enqueueNew (by decide)) <|
    .cons trivial (.schedule (by decide)) <|
    .cons trivial .allocproc <|
    .cons trivial (.allocFail (by decide)) <|
    .nil _
  refine ⟨{ started with kernel := _ }, hrun, ⟨nofun, by decide, fun _ => rfl⟩, ⟨rfl, rfl⟩, ?_,
    ⟨_, rfl, rfl, rfl⟩, ⟨_, rfl⟩, _, rfl, rfl⟩
  decide

end LockSys
end Xv6
