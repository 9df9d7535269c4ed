import Xv6.Data.Transition
import Xv6.Proc.Impl.Sched

/-!
`fork`, `exit` and `wait` as calls made of the operations of `Sched`, interleaved with the rest of
them. `fork` holds no lock between `allocproc`, the copy of the process and the insertion of the
child; `wait` gives up `ptable.lock` only inside `sleep`.
-/

namespace Xv6

inductive WaitPc where
  | outside
  | forking (np : ProcId)
  | forked (np : ProcId)
  -- sleep has been called by wait and wait has not looked at the table since
  | waiting
  deriving DecidableEq, Repr

def WaitPc.child : WaitPc → Option ProcId
  | .forking np | .forked np => some np
  | _ => none

structure Report where
  parent : ProcId
  pid : BitVec 32
  status : BitVec 32
  exitNo : Nat
  deriving DecidableEq, Repr

/--
The calls of `exit` are numbered in the order in which they take effect: `exits` has the pid of the
process and the argument of the call, `exitNo p` the number of the exit of the zombie `p`.
-/
structure WaitSys (ncpu : Nat) where
  kernel : Kernel ncpu
  pc : ProcId → WaitPc
  fault : Option Fault
  exits : List (BitVec 32 × BitVec 32)
  exitNo : ProcId → Nat
  reports : List Report

inductive WaitEvent (ncpu : Nat) where
  | fork (c : Fin ncpu)
  | forkFail (c : Fin ncpu)
  | forkCopy (c : Fin ncpu)
  | forkDone (c : Fin ncpu)
  | exit (c : Fin ncpu) (status : BitVec 32)
  | wait (c : Fin ncpu)
  | sleep (c : Fin ncpu) (chan : Chan)
  | sleepResume (c : Fin ncpu)
  | yield (c : Fin ncpu)
  | wakeup (chan : Chan)
  | kill (pid : BitVec 32)
  | schedule (c : Fin ncpu)
  deriving DecidableEq, Repr

namespace WaitSys

variable {ncpu : Nat}

def setPc (s : WaitSys ncpu) (p : ProcId) (pc : WaitPc) : WaitSys ncpu :=
  { s with pc := Function.update s.pc p pc }

def setKernel (s : WaitSys ncpu) (k : Kernel ncpu) : WaitSys ncpu :=
  { s with kernel := k }

def finish (s : WaitSys ncpu) : Except Fault (Kernel ncpu) → WaitSys ncpu
  | .ok k => s.setKernel k
  | .error f => { s with fault := some f }

def zombieOf (k : Kernel ncpu) (p : ProcId) : Option ProcId :=
  (List.finRange NPROC).find? fun q => (k.proc q).parent = some p ∧ (k.proc q).state = .zombie

def recordExit (s : WaitSys ncpu) (p : ProcId) (status : BitVec 32) : WaitSys ncpu :=
  { s with
    exits := s.exits ++ [((s.kernel.proc p).pid, status)]
    exitNo := Function.update s.exitNo p s.exits.length }

def recordReport (s : WaitSys ncpu) (p q : ProcId) (pid status : BitVec 32) : WaitSys ncpu :=
  { s with reports := s.reports ++ [⟨p, pid, status, s.exitNo q⟩] }

inductive Step (s : WaitSys ncpu) : WaitEvent ncpu → WaitSys ncpu → Prop where
  | forkFull {c p} :
      s.fault = none → s.kernel.Executes c p → s.pc p = .outside →
        s.kernel.allocproc.1 = none → Step s (.fork c) s
  | fork {c p np} :
      s.fault = none → s.kernel.Executes c p → s.pc p = .outside →
        s.kernel.allocproc.1 = some np →
          Step s (.fork c) ((s.setKernel s.kernel.allocproc.2).setPc p (.forking np))
  | forkFail {c p np} :
      s.fault = none → s.kernel.Executes c p → s.pc p = .forking np →
        Step s (.forkFail c) ((s.setKernel (s.kernel.allocFail np)).setPc p .outside)
  | forkCopy {c p np} :
      s.fault = none → s.kernel.Executes c p → s.pc p = .forking np →
        Step s (.forkCopy c) ((s.setKernel (s.kernel.forkCopy p np)).setPc p (.forked np))
  | forkDone {c p np} :
      s.fault = none → s.kernel.Executes c p → s.pc p = .forked np →
        Step s (.forkDone c) ((s.setPc p .outside).finish (s.kernel.makeRunnable np))
  | exit {c p status k} :
      s.fault = none → s.kernel.Executes c p → s.pc p = .outside →
        s.kernel.exit c p status = .ok k →
          Step s (.exit c status) ((s.recordExit p status).setKernel k)
  | exitPanics {c p status f} :
      s.fault = none → s.kernel.Executes c p → s.pc p = .outside →
        s.kernel.exit c p status = .error f → Step s (.exit c status) { s with fault := some f }
  | waitReaps {c p q pid status} :
      s.fault = none → s.kernel.Executes c p → s.pc p = .outside ∨ s.pc p = .waiting →
        zombieOf s.kernel p = some q → (s.kernel.wait c p).1 = .reaped pid status →
          Step s (.wait c) (((s.recordReport p q pid status).setKernel (s.kernel.wait c p).2).setPc p
            .outside)
  | waitFails {c p} :
      s.fault = none → s.kernel.Executes c p → s.pc p = .outside ∨ s.pc p = .waiting →
        (s.kernel.wait c p).1 = .noChild →
          Step s (.wait c) ((s.setKernel (s.kernel.wait c p).2).setPc p .outside)
  | waitSleeps {c p} :
      s.fault = none → s.kernel.Executes c p → s.pc p = .outside ∨ s.pc p = .waiting →
        (s.kernel.wait c p).1 = .sleeps →
          Step s (.wait c) ((s.setKernel (s.kernel.wait c p).2).setPc p .waiting)
  | sleep {c p chan} :
      s.fault = none → s.kernel.Executes c p → s.pc p = .outside →
        Step s (.sleep c chan) (s.setKernel (s.kernel.sleep c p chan))
  | sleepResume {c p} :
      s.fault = none → s.kernel.Executes c p → s.pc p = .outside ∨ s.pc p = .waiting →
        Step s (.sleepResume c) (s.setKernel (s.kernel.sleepResume p))
  | yield {c p} :
      s.fault = none → s.kernel.Executes c p → Step s (.yield c) (s.finish (s.kernel.yield c p))
  | wakeup {chan} :
      s.fault = none → Step s (.wakeup chan) (s.finish (s.kernel.wakeup1 chan))
  | kill {pid} :
      s.fault = none → Step s (.kill pid) (s.finish ((s.kernel.kill pid).map Prod.snd))
  | schedule {c} :
      s.fault = none → s.kernel.cpu c = none → Step s (.schedule c) (s.finish (s.kernel.scheduler c))

structure Start (s : WaitSys ncpu) : Prop where
  init : ∃ i, s.kernel.initproc = some i ∧
    ((s.kernel.proc i).state = .runnable ∨ (s.kernel.proc i).state = .running) ∧
      ∀ p, p ≠ i → (s.kernel.proc p).state = .unused
  parent : ∀ p, (s.kernel.proc p).parent = none
  pc : ∀ p, s.pc p = .outside
  fault : s.fault = none
  exits : s.exits = []
  reports : s.reports = []

end WaitSys
end Xv6
