import Xv6.Data.Transition
import Xv6.Proc.Impl.Sched

/-!
`trap` and the ways in which it ends a process. Traps nest: one that happens while the process is in
the kernel has a trap frame of its own above the frame of the trap that entered the kernel.
-/

namespace Xv6

abbrev T_PGFLT : BitVec 32 := 14
abbrev T_IRQ0 : BitVec 32 := 32
abbrev T_SYSCALL : BitVec 32 := 64

abbrev IRQ_TIMER : BitVec 32 := 0
abbrev IRQ_KBD : BitVec 32 := 1
abbrev IRQ_COM1 : BitVec 32 := 4
abbrev IRQ_IDE : BitVec 32 := 14
abbrev IRQ_SPURIOUS : BitVec 32 := 31

abbrev DPL_USER : BitVec 16 := 3

structure Trapframe where
  trapno : BitVec 32
  cs : BitVec 16
  deriving DecidableEq, Repr

namespace Trapframe

def fromUser (tf : Trapframe) : Bool := tf.cs &&& 3 == DPL_USER

/--
The `switch` of `trap`: whether it sets `myproc()->killed`. What the case T_PGFLT does to the memory
of the process decides whether it kills it and is a parameter here.
-/
def switch (tf : Trapframe) (pgfltKills : Bool) : Except Fault Bool :=
  if tf.trapno ∈ [T_IRQ0 + IRQ_TIMER, T_IRQ0 + IRQ_IDE, T_IRQ0 + IRQ_IDE + 1, T_IRQ0 + IRQ_KBD,
      T_IRQ0 + IRQ_COM1, T_IRQ0 + 7, T_IRQ0 + IRQ_SPURIOUS] then
    .ok false
  else if tf.trapno = T_PGFLT then
    .ok pgfltKills
  else if tf.cs &&& 3 = 0 then
    .error (.panic "trap")
  else
    .ok true

end Trapframe

namespace Status

def wifexited (status : BitVec 32) : Bool := status &&& 0x7f == 0

def wexitstatus (status : BitVec 32) : BitVec 32 := (status &&& 0xff00) >>> 8

def wifsignaled (status : BitVec 32) : Bool := status &&& 0x7f != 0

def wexittrap (status : BitVec 32) : BitVec 32 := (status &&& 0x7f) - 1

end Status

inductive TrapPc where
  | entry
  | syscall
  | sysReturn
  | switch
  | check
  | tick
  | recheck
  -- exit(status) has been called
  | exiting (status : BitVec 32)
  deriving DecidableEq, Repr

inductive Death where
  | exit (n : BitVec 32)
  | trap (trapno : BitVec 32)
  deriving DecidableEq, Repr

/--
`frames p` are the traps process `p` is in, the last one first. `death p` records why `exit` has been
called for it.
-/
structure TrapSys (ncpu : Nat) where
  kernel : Kernel ncpu
  frames : ProcId → List (Trapframe × TrapPc)
  death : ProcId → Option Death
  fault : Option Fault

inductive TrapEvent (ncpu : Nat) where
  | op (o : Op ncpu)
  | trap (c : Fin ncpu) (tf : Trapframe)
  | entry (c : Fin ncpu)
  | sysExit (c : Fin ncpu) (n : BitVec 32)
  | sysDone (c : Fin ncpu)
  | sysReturn (c : Fin ncpu)
  | switch (c : Fin ncpu) (pgfltKills : Bool)
  | check (c : Fin ncpu)
  | tick (c : Fin ncpu)
  | recheck (c : Fin ncpu)
  | exit (c : Fin ncpu)
  deriving DecidableEq, Repr

namespace TrapSys

variable {ncpu : Nat}

def setFrames (s : TrapSys ncpu) (p : ProcId) (l : List (Trapframe × TrapPc)) : TrapSys ncpu :=
  { s with frames := Function.update s.frames p l }

def finish (s : TrapSys ncpu) : Except Fault (Kernel ncpu) → TrapSys ncpu
  | .ok k => { s with kernel := k }
  | .error f => { s with fault := some f }

def callExit (s : TrapSys ncpu) (p : ProcId) (tf : Trapframe) (l : List (Trapframe × TrapPc))
    (why : Death) (status : BitVec 32) : TrapSys ncpu :=
  { s.setFrames p ((tf, .exiting status) :: l) with death := Function.update s.death p (some why) }

def Plain : Op ncpu → Prop
  | .exit _ _ | .yield _ => False
  | _ => True

def caller : Op ncpu → Option (Fin ncpu)
  | .forkCopy c _ | .sleep c _ | .sleepResume c | .wait c => some c
  | _ => none

/--
The vectors below 64 are those of the exceptions and of the interrupts; of the gates only that of
T_SYSCALL can be used by the process itself, in user mode.
-/
inductive Step (s : TrapSys ncpu) : TrapEvent ncpu → TrapSys ncpu → Prop where
  | op {o r} :
      s.fault = none → Plain o →
        (∀ c p, caller o = some c → s.kernel.cpu c = some p → s.frames p ≠ []) →
          s.kernel.Step o r → Step s (.op o) (s.finish r)
  | trap {c p tf} :
      s.fault = none → s.kernel.Executes c p →
        (tf.trapno = T_SYSCALL ∧ s.frames p = [] ∨ tf.trapno.toNat < 64) →
          tf.cs &&& 3 = (if s.frames p = [] then DPL_USER else 0) →
            Step s (.trap c tf) (s.setFrames p ((tf, .entry) :: s.frames p))
  | entryKilled {c p tf l} :
      s.fault = none → s.kernel.Executes c p → s.frames p = (tf, .entry) :: l →
        tf.trapno = T_SYSCALL → (s.kernel.proc p).killed = true →
          Step s (.entry c) (s.callExit p tf l (.trap tf.trapno) 0)
  | entrySyscall {c p tf l} :
      s.fault = none → s.kernel.Executes c p → s.frames p = (tf, .entry) :: l →
        tf.trapno = T_SYSCALL → (s.kernel.proc p).killed = false →
          Step s (.entry c) (s.setFrames p ((tf, .syscall) :: l))
  | entryOther {c p tf l} :
      s.fault = none → s.kernel.Executes c p → s.frames p = (tf, .entry) :: l →
        tf.trapno ≠ T_SYSCALL → Step s (.entry c) (s.setFrames p ((tf, .switch) :: l))
  | sysExit {c p tf l n} :
      s.fault = none → s.kernel.Executes c p → s.frames p = (tf, .syscall) :: l →
        Step s (.sysExit c n) (s.callExit p tf l (.exit n) (n <<< 8))
  | sysDone {c p tf l} :
      s.fault = none → s.kernel.Executes c p → s.frames p = (tf, .syscall) :: l →
        Step s (.sysDone c) (s.setFrames p ((tf, .sysReturn) :: l))
  | sysReturnKilled {c p tf l} :
      s.fault = none → s.kernel.Executes c p → s.frames p = (tf, .sysReturn) :: l →
        (s.kernel.proc p).killed = true →
          Step s (.sysReturn c) (s.callExit p tf l (.trap tf.trapno) 0)
  | sysReturn {c p tf l} :
      s.fault = none → s.kernel.Executes c p → s.frames p = (tf, .sysReturn) :: l →
        (s.kernel.proc p).killed = false → Step s (.sysReturn c) (s.setFrames p l)
  | switch {c p tf l pgfltKills kills} :
      s.fault = none → s.kernel.Executes c p → s.frames p = (tf, .switch) :: l →
        tf.switch pgfltKills = .ok kills →
          Step s (.switch c pgfltKills)
            ((s.setFrames p ((tf, .check) :: l)).finish
              (.ok (s.kernel.modifyProc p fun x => { x with killed := x.killed || kills })))
  | switchPanics {c p tf l pgfltKills f} :
      s.fault = none → s.kernel.Executes c p → s.frames p = (tf, .switch) :: l →
        tf.switch pgfltKills = .error f → Step s (.switch c pgfltKills) { s with fault := some f }
  | checkKilled {c p tf l} :
      s.fault = none → s.kernel.Executes c p → s.frames p = (tf, .check) :: l →
        (s.kernel.proc p).killed = true → tf.fromUser = true →
          Step s (.check c) (s.callExit p tf l (.trap tf.trapno) (tf.trapno + 1))
  | check {c p tf l} :
      s.fault = none → s.kernel.Executes c p → s.frames p = (tf, .check) :: l →
        ¬ ((s.kernel.proc p).killed = true ∧ tf.fromUser = true) →
          Step s (.check c) (s.setFrames p ((tf, .tick) :: l))
  | tickYield {c p tf l} :
      s.fault = none → s.kernel.Executes c p → s.frames p = (tf, .tick) :: l →
        tf.trapno = T_IRQ0 + IRQ_TIMER →
          Step s (.tick c)
            ((s.setFrames p ((tf, .recheck) :: l)).finish (s.kernel.yield c p))
  | tick {c p tf l} :
      s.fault = none → s.kernel.Executes c p → s.frames p = (tf, .tick) :: l →
        tf.trapno ≠ T_IRQ0 + IRQ_TIMER → Step s (.tick c) (s.setFrames p ((tf, .recheck) :: l))
  | recheckKilled {c p tf l} :
      s.fault = none → s.kernel.Executes c p → s.frames p = (tf, .recheck) :: l →
        (s.kernel.proc p).killed = true → tf.fromUser = true →
          Step s (.recheck c) (s.callExit p tf l (.trap tf.trapno) (tf.trapno + 1))
  | recheck {c p tf l} :
      s.fault = none → s.kernel.Executes c p → s.frames p = (tf, .recheck) :: l →
        ¬ ((s.kernel.proc p).killed = true ∧ tf.fromUser = true) →
          Step s (.recheck c) (s.setFrames p l)
  | exit {c p tf l status} :
      s.fault = none → s.kernel.Executes c p → s.frames p = (tf, .exiting status) :: l →
        Step s (.exit c) ((s.setFrames p []).finish (s.kernel.exit c p status))

structure Start (s : TrapSys ncpu) : Prop where
  frames : ∀ p, s.frames p = []
  fault : s.fault = none
  zombie : ∀ p, (s.kernel.proc p).state ≠ .zombie

end TrapSys
end Xv6
