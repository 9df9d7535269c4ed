import Xv6.Proc.Impl.Trap
import Xv6.Proc.Lemmas.Wait

namespace Xv6

namespace Death

def Encodes : Death → BitVec 32 → Prop
  | .exit n, status => status = n <<< 8
  | .trap trapno, status => status = trapno + 1 ∧ trapno.toNat < 64

-- what the parent of a process with this death is to read from the status
def Decoded (status : BitVec 32) : Death → Prop
  | .exit n => Status.wifexited status = true ∧ Status.wexitstatus status = n % 256
  | .trap trapno =>
    Status.wifexited status = false ∧ Status.wifsignaled status = true ∧
      Status.wexittrap status = trapno

theorem and_toNat {x m : BitVec 32} {k : Nat} (hm : m.toNat = 2 ^ k - 1)
    : (x &&& m).toNat = x.toNat % 2 ^ k := by
  rw [BitVec.toNat_and, hm, Nat.and_two_pow_sub_one_eq_mod]

theorem wifexited_shift (n : BitVec 32) : Status.wifexited (n <<< 8) = true := by
  have hzero : n <<< 8 &&& 0x7f = 0 := by
    apply BitVec.eq_of_toNat_eq
    rw [and_toNat (k := 7) rfl, BitVec.toNat_shiftLeft, Nat.shiftLeft_eq]
    simp only [BitVec.ofNat_eq_ofNat, BitVec.toNat_ofNat]
    omega
  unfold Status.wifexited
  rw [hzero]
  rfl

theorem wexitstatus_shift (n : BitVec 32) : Status.wexitstatus (n <<< 8) = n % 256 := by
  unfold Status.wexitstatus
  rw [BitVec.ushiftRight_and_distrib]
  apply BitVec.eq_of_toNat_eq
  rw [and_toNat (k := 8) rfl, BitVec.toNat_ushiftRight, BitVec.toNat_shiftLeft, BitVec.toNat_umod,
    Nat.shiftLeft_eq, Nat.shiftRight_eq_div_pow]
  rw [show (256 : BitVec 32).toNat = 256 from rfl]
  omega

theorem and_of_lt {trapno : BitVec 32} (h : trapno.toNat < 64)
    : (trapno + 1) &&& 0x7f = trapno + 1 := by
  apply BitVec.eq_of_toNat_eq
  rw [and_toNat (k := 7) rfl]
  bv_omega

theorem Encodes.decoded {z : Death} {status : BitVec 32} (h : z.Encodes status)
    : z.Decoded status := by
  cases z with
  | exit n =>
    cases h
    exact ⟨wifexited_shift n, wexitstatus_shift n⟩
  | trap trapno =>
    rcases h with ⟨rfl, hlt⟩
    have hne : trapno + 1 ≠ 0 := by
      bv_omega
    unfold Decoded Status.wifexited Status.wifsignaled Status.wexittrap
    rw [and_of_lt hlt]
    refine ⟨?_, ?_, ?_⟩
    . simpa using hne
    . simpa using hne
    . bv_omega

end Death

namespace Kernel

variable {ncpu : Nat} {s t : Kernel ncpu} {q : ProcId}

def ZombieSince (s t : Kernel ncpu) (q : ProcId) : Prop :=
  (t.proc q).state = .zombie → (s.proc q).state = .zombie ∧ (t.proc q).status = (s.proc q).status

theorem ZombieSince.modifyProc {p : ProcId} {f : Proc → Proc}
    (h : (f (s.proc p)).state ≠ .zombie ∨
      (f (s.proc p)).state = (s.proc p).state ∧ (f (s.proc p)).status = (s.proc p).status)
    : ZombieSince s (s.modifyProc p f) q := by
  intro hz
  by_cases hq : q = p
  . subst hq
    rw [modifyProc_proc_self] at hz ⊢
    cases h with
    | inl hne => exact absurd hz hne
    | inr heq => exact ⟨by rw [← heq.1, hz], heq.2⟩
  . rw [modifyProc_proc_ne _ _ _ _ hq] at hz ⊢
    exact ⟨hz, rfl⟩

theorem ZombieSince.of_life {F : Family} (ht : t.life = F)
    (hF : (F q).state = .zombie → (s.life q).state = .zombie ∧ (F q).status = (s.life q).status)
    : ZombieSince s t q := by
  subst ht
  exact hF

theorem ZombieSince.of_moves {F : Family} (ht : t.life = F) (hF : Family.Moves s.life F)
    : ZombieSince s t q := by
  apply ZombieSince.of_life ht
  intro hz
  exact ⟨(hF.zombie q).mp hz, hF.status q⟩

theorem Step.zombieSince {o : Op ncpu} (hstep : s.Step o (.ok t)) (ho : TrapSys.Plain o)
    : ZombieSince s t q := by
  generalize hr : (Except.ok t : Except Fault (Kernel ncpu)) = r at hstep
  cases hstep with
  | allocproc =>
    cases hr
    unfold Kernel.allocproc
    split
    . intro hz
      exact ⟨hz, rfl⟩
    next p _ =>
      have hmod : ZombieSince s (s.modifyProc p
          ({ · with state := .embryo, pid := s.nextpid, prio := 5 })) q := by
        apply ZombieSince.modifyProc
        left
        simp
      exact hmod
  | allocFail =>
    cases hr
    apply ZombieSince.modifyProc
    left
    simp
  | @userinitSetup p _ =>
    cases hr
    have hmod : ZombieSince s (s.modifyProc p ({ · with prio := 5 })) q := by
      apply ZombieSince.modifyProc
      right
      exact ⟨rfl, rfl⟩
    exact hmod
  | forkCopy =>
    cases hr
    apply ZombieSince.modifyProc
    right
    exact ⟨rfl, rfl⟩
  | @enqueueNew np _ =>
    apply ZombieSince.of_life ((makeRunnable_yields s np).life t hr.symm)
    intro hz
    by_cases hq : q = np
    . subst hq
      simp at hz
    . rw [Family.modify_of_ne _ _ _ _ hq] at hz ⊢
      exact ⟨hz, rfl⟩
  | yield => cases ho
  | @sleep c p chan _ =>
    cases hr
    have hmod : ZombieSince s (s.modifyProc p ({ · with chan := chan, state := .sleeping })) q := by
      apply ZombieSince.modifyProc
      left
      simp
    exact hmod
  | sleepResume =>
    cases hr
    apply ZombieSince.modifyProc
    right
    exact ⟨rfl, rfl⟩
  | @wakeup chan =>
    exact .of_moves ((wakeup1_yields s chan).life t hr.symm) (Family.Stirs.wake _ chan).toMoves
  | @kill pid =>
    exact .of_moves ((kill_yields s pid).life t hr.symm) (Family.Stirs.kill _ pid).toMoves
  | exit => cases ho
  | @wait c p _ =>
    cases hr
    rcases wait_cases s c p with ⟨r, hr⟩ | ⟨_, hr | hr⟩
    . rw [wait_reaps hr]
      dsimp only
      apply ZombieSince.modifyProc
      left
      simp
    . rw [hr]
      intro hz
      exact ⟨hz, rfl⟩
    . rw [hr]
      have hmod : ZombieSince s
          (s.modifyProc p ({ · with chan := .proc p, state := .sleeping })) q := by
        apply ZombieSince.modifyProc
        left
        simp
      exact hmod
  | @schedule c _ =>
    rcases scheduler_yields s c with hy | ⟨p, hp, hy⟩
    . exact .of_moves (hy.life t hr.symm) (Family.Stirs.refl _).toMoves
    . apply ZombieSince.of_life (hy.life t hr.symm)
      intro hz
      by_cases hq : q = p
      . subst hq
        simp at hz
      . rw [Family.modify_of_ne _ _ _ _ hq] at hz ⊢
        exact ⟨hz, rfl⟩

end Kernel

namespace TrapSys

variable {ncpu : Nat} {s t : TrapSys ncpu} {p : ProcId} {tf : Trapframe} {pc pc' : TrapPc}
  {l : List (Trapframe × TrapPc)} {z : Option Death}

def Outer (tf : Trapframe) : Prop := tf.fromUser = true ∨ tf.trapno = T_SYSCALL

def FrameOk (z : Option Death) (tf : Trapframe) : TrapPc → Prop
  | .entry => tf.trapno = T_SYSCALL ∨ tf.trapno.toNat < 64
  | .syscall | .sysReturn => tf.trapno = T_SYSCALL
  | .switch | .check | .tick | .recheck => tf.trapno.toNat < 64
  | .exiting status => Outer tf ∧ ∃ d, z = some d ∧ d.Encodes status

structure Stack (z : Option Death) (l : List (Trapframe × TrapPc)) : Prop where
  frame : ∀ f ∈ l, FrameOk z f.1 f.2
  inner : ∀ f ∈ l.dropLast, ¬ Outer f.1

namespace Stack

theorem head (h : Stack z ((tf, pc) :: l)) : FrameOk z tf pc :=
  h.frame _ List.mem_cons_self

theorem tail (h : Stack z ((tf, pc) :: l)) : Stack z l := by
  constructor
  . intro f hf
    exact h.frame f (List.mem_cons_of_mem _ hf)
  . intro f hf
    apply h.inner
    cases l with
    | nil => contradiction
    | cons g l =>
      rw [List.dropLast_cons_of_ne_nil (by simp)]
      exact List.mem_cons_of_mem _ hf

theorem eq_nil (h : Stack z ((tf, pc) :: l)) (houter : Outer tf) : l = [] := by
  cases l with
  | nil => rfl
  | cons g l =>
    have hinner := h.inner (tf, pc) (by simp)
    exact absurd houter hinner

theorem cons (h : Stack z l) (hframe : FrameOk z tf pc) (hinner : l ≠ [] → ¬ Outer tf)
    : Stack z ((tf, pc) :: l) := by
  constructor
  . intro f hf
    rw [List.mem_cons] at hf
    cases hf with
    | inl heq => rw [heq]; exact hframe
    | inr hmem => exact h.frame f hmem
  . intro f hf
    cases l with
    | nil => contradiction
    | cons g l =>
      rw [List.dropLast_cons_of_ne_nil (by simp), List.mem_cons] at hf
      cases hf with
      | inl heq => rw [heq]; exact hinner (by simp)
      | inr hmem => exact h.inner f hmem

theorem replace (h : Stack z ((tf, pc) :: l)) (hframe : FrameOk z tf pc')
    : Stack z ((tf, pc') :: l) := by
  apply h.tail.cons hframe
  intro hl houter
  exact hl (h.eq_nil houter)

end Stack

structure Inv (s : TrapSys ncpu) : Prop where
  stack : ∀ p, Stack (s.death p) (s.frames p)
  zombie : ∀ p, (s.kernel.proc p).state = .zombie →
    ∃ d, s.death p = some d ∧ d.Encodes (s.kernel.proc p).status

namespace Inv

theorem setFrames (h : s.Inv) (p : ProcId) (hl : Stack (s.death p) l) : (s.setFrames p l).Inv := by
  refine ⟨?_, h.zombie⟩
  intro r
  by_cases hr : r = p
  . subst hr
    simpa [TrapSys.setFrames] using hl
  . simpa [TrapSys.setFrames, hr] using h.stack r

theorem callExit (h : s.Inv) {d : Death} {status : BitVec 32} {c : Fin ncpu}
    (hc : s.kernel.Executes c p) (hframes : s.frames p = (tf, pc) :: l) (houter : Outer tf)
    (hd : d.Encodes status)
    : (s.callExit p tf l d status).Inv := by
  have hl : l = [] := by
    have hstack := h.stack p
    rw [hframes] at hstack
    exact hstack.eq_nil houter
  subst hl
  constructor
  . intro r
    by_cases hr : r = p
    . subst hr
      simp only [TrapSys.callExit, TrapSys.setFrames, Function.update_self]
      constructor
      . intro f hf
        rw [List.mem_singleton] at hf
        rw [hf]
        exact ⟨houter, d, rfl, hd⟩
      . simp
    . simpa [TrapSys.callExit, TrapSys.setFrames, hr] using h.stack r
  . intro r hz
    have hr : r ≠ p := by
      intro heq
      subst heq
      rw [show (s.callExit r tf [] d status).kernel = s.kernel from rfl, hc.2] at hz
      contradiction
    have hdeath : (s.callExit p tf [] d status).death r = s.death r := by
      simp [TrapSys.callExit, hr]
    rw [hdeath]
    exact h.zombie r hz

theorem finish (h : s.Inv) {r : Except Fault (Kernel ncpu)}
    (hr : ∀ k, r = .ok k → ∀ q, Kernel.ZombieSince s.kernel k q)
    : (s.finish r).Inv := by
  cases r with
  | error f => exact ⟨h.stack, h.zombie⟩
  | ok k =>
    refine ⟨h.stack, ?_⟩
    intro q hz
    rcases hr k rfl q hz with ⟨hold, hstatus⟩
    rcases h.zombie q hold with ⟨d, hd, hencodes⟩
    refine ⟨d, hd, ?_⟩
    show d.Encodes (k.proc q).status
    rwa [hstatus]

end Inv

-- No process is found killed by the checks around `syscall`.
def KilledOutside (s : TrapSys ncpu) : TrapEvent ncpu → Prop
  | .entry c | .sysReturn c =>
    ∀ p tf pc l, s.kernel.cpu c = some p → s.frames p = (tf, pc) :: l → tf.trapno = T_SYSCALL →
      (s.kernel.proc p).killed = false
  | _ => True

theorem Step.inv {e : TrapEvent ncpu} (hstep : s.Step e t) (h : s.Inv) (hok : s.KilledOutside e)
    : t.Inv := by
  have hstack : ∀ {p tf pc l}, s.frames p = (tf, pc) :: l → Stack (s.death p) ((tf, pc) :: l) := by
    intro p tf pc l hframes
    rw [← hframes]
    exact h.stack p
  cases hstep with
  | op _ hplain _ hop =>
    apply h.finish
    intro k hk q
    rw [hk] at hop
    exact hop.zombieSince hplain
  | @trap c p tf _ hc hno hcs =>
    apply h.setFrames
    apply (h.stack p).cons
    . cases hno with
      | inl hsys => exact .inl hsys.1
      | inr hlt => exact .inr hlt
    . intro hl houter
      rw [if_neg hl] at hcs
      cases houter with
      | inl huser =>
        unfold Trapframe.fromUser at huser
        rw [hcs] at huser
        contradiction
      | inr hsys =>
        cases hno with
        | inl hnil => exact hl hnil.2
        | inr hlt =>
          rw [hsys] at hlt
          contradiction
  | @entryKilled c p tf l _ hc hframes hno hkilled =>
    rw [hok p tf .entry l hc.1 hframes hno] at hkilled
    contradiction
  | entrySyscall _ _ hframes hno _ =>
    apply h.setFrames
    exact (hstack hframes).replace hno
  | entryOther _ _ hframes hno =>
    apply h.setFrames
    apply (hstack hframes).replace
    cases (hstack hframes).head with
    | inl hsys => exact absurd hsys hno
    | inr hlt => exact hlt
  | sysExit _ hc hframes => exact h.callExit hc hframes (.inr (hstack hframes).head) rfl
  | sysDone _ _ hframes =>
    apply h.setFrames
    exact (hstack hframes).replace (hstack hframes).head
  | @sysReturnKilled c p tf l _ hc hframes hkilled =>
    rw [hok p tf .sysReturn l hc.1 hframes (hstack hframes).head] at hkilled
    contradiction
  | sysReturn _ _ hframes _ =>
    apply h.setFrames
    exact (hstack hframes).tail
  | @switch c p tf l pgfltKills kills _ _ hframes _ =>
    apply Inv.finish
    . apply h.setFrames
      exact (hstack hframes).replace (hstack hframes).head
    . intro k hk q
      cases hk
      apply Kernel.ZombieSince.modifyProc
      right
      exact ⟨rfl, rfl⟩
  | switchPanics => exact ⟨h.stack, h.zombie⟩
  | checkKilled _ hc hframes _ huser =>
    exact h.callExit hc hframes (.inl huser) ⟨rfl, (hstack hframes).head⟩
  | check _ _ hframes _ =>
    apply h.setFrames
    exact (hstack hframes).replace (hstack hframes).head
  | @tickYield c p tf l _ hc hframes _ =>
    apply Inv.finish
    . apply h.setFrames
      exact (hstack hframes).replace (hstack hframes).head
    . intro k hk q
      apply Kernel.ZombieSince.of_moves ((Kernel.yield_yields s.kernel c p).life k hk)
      apply Family.Moves.modify hc.alive
      . exact (by decide : ProcState.Alive .runnable)
      . simp
  | tick _ _ hframes _ =>
    apply h.setFrames
    exact (hstack hframes).replace (hstack hframes).head
  | recheckKilled _ hc hframes _ huser =>
    exact h.callExit hc hframes (.inl huser) ⟨rfl, (hstack hframes).head⟩
  | recheck _ _ hframes _ =>
    apply h.setFrames
    exact (hstack hframes).tail
  | @exit c p tf l status _ hc hframes =>
    rcases (hstack hframes).head with ⟨_, d, hd, hencodes⟩
    have hinv : (s.setFrames p []).Inv := by
      apply h.setFrames
      exact ⟨by simp, by simp⟩
    have hexit := Kernel.exit_yields s.kernel c p status
    generalize s.kernel.exit c p status = r at hexit
    cases r with
    | error f => exact ⟨hinv.stack, hinv.zombie⟩
    | ok k =>
      refine ⟨hinv.stack, ?_⟩
      intro q hz
      have hlife := hexit.life k rfl
      have hstate : (k.life q).state = .zombie := hz
      show ∃ d, s.death q = some d ∧ d.Encodes (k.life q).status
      rw [hlife] at hstate ⊢
      by_cases hq : q = p
      . subst hq
        rw [(Family.exit_self _ _ _ _).2.2]
        exact ⟨d, hd, hencodes⟩
      . rw [Family.exit_zombie _ _ _ hq] at hstate
        rw [(Family.exit_of_ne _ _ _ hq).2.2]
        exact h.zombie q hstate

abbrev EventRun (ok : TrapSys ncpu → TrapEvent ncpu → Prop) (s : TrapSys ncpu)
    (es : List (TrapEvent ncpu)) (t : TrapSys ncpu) : Prop :=
  Transition.Run Step ok s es t

theorem Start.inv (h : s.Start) : s.Inv := by
  constructor
  . intro p
    rw [h.frames]
    exact ⟨by simp, by simp⟩
  . intro p hz
    exact absurd hz (h.zombie p)

/--
The word that a call of `wait` reports tells how the process that it reports has died.
-/
def WaitDecodes (s : TrapSys ncpu) : Prop :=
  ∀ c p pid status, (s.kernel.wait c p).1 = .reaped pid status →
    ∃ q d, (s.kernel.proc q).parent = some p ∧ (s.kernel.proc q).state = .zombie ∧
      (s.kernel.proc q).pid = pid ∧ s.death q = some d ∧ d.Decoded status

theorem wait_decodes_death {es : List (TrapEvent ncpu)} (hstart : s.Start)
    (hrun : EventRun KilledOutside s es t)
    : t.WaitDecodes := by
  have hinv : t.Inv := by
    apply hrun.invariant _ hstart.inv
    intro u e v hu hok hstep
    exact hstep.inv hu hok
  intro c p pid status hw
  rcases Kernel.wait_cases t.kernel c p with ⟨q, hq⟩ | ⟨_, hr | hr⟩
  . rw [Kernel.wait_reaps hq] at hw
    cases hw
    rcases Kernel.zombieOf_some hq with ⟨hparent, hz⟩
    rcases hinv.zombie q hz with ⟨d, hd, hencodes⟩
    exact ⟨q, d, hparent, hz, rfl, hd, hencodes.decoded⟩
  . rw [hr] at hw
    contradiction
  . rw [hr] at hw
    contradiction

def childRuns : TrapSys 2 where
  kernel :=
    {
        proc := fun p =>
          match p.val with
          | 0 => { (default : Proc) with state := .running, pid := 1, prio := 5 }
          | 1 => { (default : Proc) with state := .running, pid := 2, parent := some 0, prio := 5 }
          | _ => default
        priotable := fun _ => ⟨none, none⟩
        nextpid := 3
        initproc := some 0
        cpu := fun c => if c = 0 then some 0 else some 1
    }
  frames := fun _ => []
  death := fun _ => none
  fault := none

theorem childRuns_start : childRuns.Start where
  frames := by intros; rfl
  fault := rfl
  zombie := by decide

theorem killed_in_syscall_looks_exited
    : ¬ ∀ (s t : TrapSys 2) (es : List (TrapEvent 2)), s.Start → EventRun (fun _ _ => True) s es t →
        t.WaitDecodes := by
  intro hdecodes
  have hrun : EventRun (fun _ _ => True) childRuns
      [.op (.kill 2), .trap 1 ⟨T_SYSCALL, 3⟩, .entry 1, .exit 1] _ :=
    .cons trivial (.op rfl trivial (fun _ _ hc => by cases hc) .kill) <|
    .cons trivial (.trap (p := 1) rfl (by decide) (.inl ⟨rfl, rfl⟩) (by decide)) <|
    .cons trivial (.entryKilled (p := 1) (l := []) rfl (by decide) rfl rfl
      (by decide)) <|
    .cons trivial (.exit (p := 1) (l := []) rfl (by decide) rfl)
      (.nil _)
  rcases hdecodes _ _ _ childRuns_start hrun 0 0 2 0 (by decide) with ⟨q, d, hq, hz, hpid, hd, hdec⟩
  have hq1 : q = 1 := by
    clear hdec hd hpid hq
    revert q
    decide
  subst hq1
  cases hd
  exact absurd hdec.1 (by decide)

theorem wait_decodes_death_divide
    : ∃ t, EventRun KilledOutside childRuns [.trap 1 ⟨0, 3⟩, .entry 1, .switch 1 false, .check 1, .exit 1]
        t ∧ (t.kernel.wait 0 0).1 = .reaped 2 1 ∧ t.WaitDecodes := by
  have hrun : EventRun KilledOutside childRuns
      [.trap 1 ⟨0, 3⟩, .entry 1, .switch 1 false, .check 1, .exit 1] _ :=
    .cons trivial (.trap (p := 1) rfl (by decide) (.inr (by decide)) (by decide)) <|
    .cons (by
      intro p tf pc l hc hframes hno
      cases hc
      cases hframes
      contradiction)
      (.entryOther (p := 1) (l := []) rfl (by decide) rfl (by decide)) <|
    .cons trivial (.switch (p := 1) (l := []) rfl (by decide) rfl rfl) <|
    .cons trivial (.checkKilled (p := 1) (l := []) rfl (by decide) rfl (by decide)
      (by decide)) <|
    .cons trivial (.exit (p := 1) (l := []) rfl (by decide) rfl) (.nil _)
  exact ⟨_, hrun, by decide, wait_decodes_death childRuns_start hrun⟩

end TrapSys
end Xv6
