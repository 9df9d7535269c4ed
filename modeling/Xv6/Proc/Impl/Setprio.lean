import Xv6.Data.Linked
import Xv6.Proc.Impl.Sched

/-!
`sys_setprio` beside the operations of `Sched`. The calls are interrupted wherever they do not hold
`ptable.lock`: after `getProcbyPID`, after the read of `p->state`, and between the computation of
`prt` in `setNewPrio` and its `acquire`.
-/

namespace Xv6

inductive SetprioPc where
  | outside
  | gotProc (p : ProcId) (a : BitVec 32)
  | sawRunnable (p : ProcId) (a : BitVec 32)
  | sawOther (p : ProcId) (a : BitVec 32)
  | gotPrt (p : ProcId) (a : BitVec 32) (prt : Fin NPRIO)
  deriving DecidableEq, Repr

structure SetprioSys (ncpu : Nat) where
  kernel : Kernel ncpu
  pc : ProcId → SetprioPc
  -- getProcbyPID returns without release when it does not find the pid
  lockLeaked : Bool
  fault : Option Fault

inductive SetprioEvent (ncpu : Nat) where
  | op (o : Op ncpu)
  | getProcbyPID (c : Fin ncpu) (pid : BitVec 32) (a : BitVec 32)
  | readState (c : Fin ncpu)
  | readPrt (c : Fin ncpu)
  | setNewPrio (c : Fin ncpu)
  | writePrio (c : Fin ncpu)
  deriving DecidableEq, Repr

namespace Op

variable {ncpu : Nat}

def takesLock : Op ncpu → Bool
  | .allocFail _ | .userinitSetup _ | .forkCopy _ _ => false
  | _ => true

-- The CPU whose process is in another system call while it performs the operation.
def caller : Op ncpu → Option (Fin ncpu)
  | .forkCopy c _ | .sleep c _ | .sleepResume c | .exit c _ | .wait c => some c
  | _ => none

end Op

namespace SetprioSys

variable {ncpu : Nat}

def setPc (s : SetprioSys ncpu) (cur : ProcId) (pc : SetprioPc) : SetprioSys ncpu :=
  { s with pc := Function.update s.pc cur pc }

def finish (s : SetprioSys ncpu) : Except Fault (Kernel ncpu) → SetprioSys ncpu
  | .ok k => { s with kernel := k }
  | .error f => { s with fault := some f }

inductive Step (s : SetprioSys ncpu) : SetprioEvent ncpu → SetprioSys ncpu → Prop where
  | op {o r} :
      s.fault = none → (o.takesLock → s.lockLeaked = false) →
        (∀ c p, o.caller = some c → s.kernel.cpu c = some p → s.pc p = .outside) →
          s.kernel.Step o r → Step s (.op o) (s.finish r)
  | found {c u pid a p} :
      s.fault = none → s.lockLeaked = false → s.kernel.Executes c u → s.pc u = .outside →
        s.kernel.findPid pid = some p → Step s (.getProcbyPID c pid a) (s.setPc u (.gotProc p a))
  | notFound {c u pid a} :
      s.fault = none → s.lockLeaked = false → s.kernel.Executes c u → s.pc u = .outside →
        s.kernel.findPid pid = none → Step s (.getProcbyPID c pid a) { s with lockLeaked := true }
  | readState {c u p a} :
      s.fault = none → s.kernel.Executes c u → s.pc u = .gotProc p a →
        Step s (.readState c) (s.setPc u
          (if (s.kernel.proc p).state = .runnable then .sawRunnable p a else .sawOther p a))
  | readPrt {c u p a q} :
      s.fault = none → s.kernel.Executes c u → s.pc u = .sawRunnable p a →
        Kernel.priotableIdx (s.kernel.proc p).prio = .ok q →
          Step s (.readPrt c) (s.setPc u (.gotPrt p a q))
  | readPrtOut {c u p a f} :
      s.fault = none → s.kernel.Executes c u → s.pc u = .sawRunnable p a →
        Kernel.priotableIdx (s.kernel.proc p).prio = .error f →
          Step s (.readPrt c) { s with fault := some f }
  | setNewPrio {c u p a q} :
      s.fault = none → s.lockLeaked = false → s.kernel.Executes c u → s.pc u = .gotPrt p a q →
        Step s (.setNewPrio c) ((s.setPc u .outside).finish (s.kernel.setNewPrio p a q))
  | writePrio {c u p a} :
      s.fault = none → s.kernel.Executes c u → s.pc u = .sawOther p a →
        Step s (.writePrio c)
          ((s.setPc u .outside).finish (.ok (s.kernel.modifyProc p ({ · with prio := a }))))

structure Start (s : SetprioSys ncpu) : Prop where
  pc : ∀ p, s.pc p = .outside
  lockLeaked : s.lockLeaked = false
  fault : s.fault = none

end SetprioSys

namespace Kernel

variable {ncpu : Nat}

def OnQueue (s : Kernel ncpu) (q : Fin NPRIO) (p : ProcId) : Prop :=
  Linked.Reaches s.sigprio (s.priotable q).primero p

end Kernel
end Xv6
