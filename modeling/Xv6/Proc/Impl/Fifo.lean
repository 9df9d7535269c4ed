import Xv6.Proc.Impl.Sched

/-!
When processes become RUNNABLE. The calls of `insertProc` are numbered by a clock, and `stamp p` is
the number of the last one for `p`. `sys_setprio` may store a priority as long as the process is not
in a queue.
-/

namespace Xv6
namespace Kernel

variable {ncpu : Nat}

-- the processes that wakeup1 inserts, in the order of its loop
def woken (s : Kernel ncpu) (chan : Chan) : List ProcId :=
  (List.finRange NPROC).filter (fun p => (s.proc p).state = .sleeping ∧ (s.proc p).chan = chan)

def exitWoken (curproc : ProcId) : List ProcId → Kernel ncpu → List ProcId
  | [], _ => []
  | p :: ps, s =>
    let woken :=
      if (s.proc p).parent = some curproc ∧ (s.proc p).state = .zombie then
        s.woken (Chan.ofProc s.initproc)
      else
        []
    match exitChildStep curproc s p with
    | .ok s => woken ++ exitWoken curproc ps s
    | .error _ => woken

def exitEnqueued (s : Kernel ncpu) (curproc : ProcId) : List ProcId :=
  let chan := Chan.ofProc (s.proc curproc).parent
  match (s.wakeup1 chan) with
  | .ok t => s.woken chan ++ exitWoken curproc (List.finRange NPROC) t
  | .error _ => s.woken chan

-- the processes that an operation inserts into queues, in this order
def enqueued (s : Kernel ncpu) : Op ncpu → List ProcId
  | .enqueueNew np => [np]
  | .yield c => (s.cpu c).toList
  | .wakeup chan => s.woken chan
  | .kill pid =>
    match s.findPid pid with
    | none => []
    | some p => if (s.proc p).state = .sleeping then [p] else []
  | .exit c status =>
    match s.cpu c with
    | none => []
    | some p => (s.modifyProc p ({ · with status := status })).exitEnqueued p
  | _ => []

end Kernel

structure FifoSys (ncpu : Nat) where
  kernel : Kernel ncpu
  stamp : ProcId → Nat
  clock : Nat

namespace FifoSys

variable {ncpu : Nat}

def mark (s : FifoSys ncpu) (p : ProcId) : FifoSys ncpu :=
  { s with stamp := Function.update s.stamp p s.clock, clock := s.clock + 1 }

inductive Event (ncpu : Nat) where
  | op (op : Op ncpu)
  | setprio (p : ProcId) (prio : BitVec 32)

inductive Step (s : FifoSys ncpu) : Event ncpu → FifoSys ncpu → Prop where
  | op {op t} :
      s.kernel.Step op (.ok t) →
        Step s (.op op) { (s.kernel.enqueued op).foldl mark s with kernel := t }
  | setprio {p prio} :
      (s.kernel.proc p).state ≠ .runnable →
        Step s (.setprio p prio)
          { s with kernel := s.kernel.modifyProc p ({ · with prio := prio }) }

def boot : FifoSys ncpu := ⟨.boot, fun _ => 0, 0⟩

end FifoSys
end Xv6
