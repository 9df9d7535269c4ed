import Xv6.Proc.Impl.Queue

/-!
The operations of `proc.c` that run under `ptable.lock`, each from `acquire` to the next `release`.
A process that gives up its CPU in one of them (`yield`, `sleep`, `exit`) ends in `sched`: the lock
is handed to the scheduler of that CPU, which clears `c->proc` and releases it, so this is part of
the operation.
-/

namespace Xv6
namespace Kernel

variable {ncpu : Nat}

def allocproc (s : Kernel ncpu) : Option ProcId × Kernel ncpu :=
  match (List.finRange NPROC).find? (fun p => (s.proc p).state = .unused) with
  | none => (none, s)
  | some p =>
    let s := s.modifyProc p ({ · with state := .embryo, pid := s.nextpid, prio := 5 })
    (some p, { s with nextpid := s.nextpid + 1 })

def allocFail (s : Kernel ncpu) (np : ProcId) : Kernel ncpu :=
  s.modifyProc np ({ · with state := .unused })

def forkCopy (s : Kernel ncpu) (curproc np : ProcId) : Kernel ncpu :=
  s.modifyProc np ({ · with parent := some curproc, prio := (s.proc curproc).prio })

def userinitSetup (s : Kernel ncpu) (p : ProcId) : Kernel ncpu :=
  { s.modifyProc p ({ · with prio := 5 }) with initproc := some p }

def makeRunnable (s : Kernel ncpu) (p : ProcId) : Except Fault (Kernel ncpu) :=
  let s := s.modifyProc p ({ · with state := .runnable })
  s.insertProc p (s.proc p).prio

def yield (s : Kernel ncpu) (c : Fin ncpu) (curproc : ProcId) : Except Fault (Kernel ncpu) := do
  let s ← s.makeRunnable curproc
  return s.setCpu c none

def sleep (s : Kernel ncpu) (c : Fin ncpu) (curproc : ProcId) (chan : Chan) : Kernel ncpu :=
  let s := s.modifyProc curproc ({ · with chan := chan, state := .sleeping })
  s.setCpu c none

def sleepResume (s : Kernel ncpu) (curproc : ProcId) : Kernel ncpu :=
  s.modifyProc curproc ({ · with chan := .null })

def wakeup1Step (chan : Chan) (s : Kernel ncpu) (p : ProcId) : Except Fault (Kernel ncpu) :=
  if (s.proc p).state = .sleeping ∧ (s.proc p).chan = chan then
    s.makeRunnable p
  else
    .ok s

def wakeup1 (s : Kernel ncpu) (chan : Chan) : Except Fault (Kernel ncpu) :=
  (List.finRange NPROC).foldlM (wakeup1Step chan) s

def kill (s : Kernel ncpu) (pid : BitVec 32) : Except Fault (Int × Kernel ncpu) := do
  match s.findPid pid with
  | none => return (-1, s)
  | some p =>
    let s := s.modifyProc p ({ · with killed := true })
    if (s.proc p).state = .sleeping then
      let s ← s.makeRunnable p
      return (0, s)
    else
      return (0, s)

def exitChildStep (curproc : ProcId) (s : Kernel ncpu) (p : ProcId) : Except Fault (Kernel ncpu) :=
  if (s.proc p).parent = some curproc then
    let s := s.modifyProc p ({ · with parent := s.initproc })
    if (s.proc p).state = .zombie then
      s.wakeup1 (Chan.ofProc s.initproc)
    else
      .ok s
  else
    .ok s

def exit (s : Kernel ncpu) (c : Fin ncpu) (curproc : ProcId) (status : BitVec 32)
    : Except Fault (Kernel ncpu) := do
  let s := s.modifyProc curproc ({ · with status := status })
  if s.initproc = some curproc then
    throw (.panic "init exiting")
  let s ← s.wakeup1 (Chan.ofProc (s.proc curproc).parent)
  let s ← (List.finRange NPROC).foldlM (exitChildStep curproc) s
  let s := s.modifyProc curproc ({ · with state := .zombie })
  return s.setCpu c none

inductive WaitResult where
  | reaped (pid : BitVec 32) (status : BitVec 32)
  | noChild
  | sleeps
  deriving DecidableEq, Repr

def wait (s : Kernel ncpu) (c : Fin ncpu) (curproc : ProcId) : WaitResult × Kernel ncpu :=
  let isChild := fun p => (s.proc p).parent = some curproc
  match (List.finRange NPROC).find? (fun p => isChild p ∧ (s.proc p).state = .zombie) with
  | some p =>
    let reset := fun x : Proc =>
      { x with pid := 0, parent := none, killed := false, state := .unused }
    (.reaped (s.proc p).pid (s.proc p).status, s.modifyProc p reset)
  | none =>
    let havekids := (List.finRange NPROC).any isChild
    if !havekids || (s.proc curproc).killed then
      (.noChild, s)
    else
      (.sleeps, s.sleep c curproc (.proc curproc))

def choose (s : Kernel ncpu) : Option ProcId :=
  (List.finRange NPRIO).findSome? fun pi =>
    match (s.priotable pi).primero with
    | none => none
    | some p => if (s.proc p).state ≠ .runnable then none else some p

def scheduler (s : Kernel ncpu) (c : Fin ncpu) : Except Fault (Kernel ncpu) := do
  match s.choose with
  | none => return s
  | some p =>
    let s := s.setCpu c (some p)
    let s := s.modifyProc p ({ · with state := .running })
    let (_, s) ← s.quitarProc p (s.proc p).prio
    return s

end Kernel

inductive Op (ncpu : Nat) where
  | allocproc
  | allocFail (np : ProcId)
  | userinitSetup (p : ProcId)
  | forkCopy (c : Fin ncpu) (np : ProcId)
  | enqueueNew (np : ProcId)
  | yield (c : Fin ncpu)
  | sleep (c : Fin ncpu) (chan : Chan)
  | sleepResume (c : Fin ncpu)
  | wakeup (chan : Chan)
  | kill (pid : BitVec 32)
  | exit (c : Fin ncpu) (status : BitVec 32)
  | wait (c : Fin ncpu)
  | schedule (c : Fin ncpu)
  deriving DecidableEq, Repr

namespace Kernel

variable {ncpu : Nat}

def Executes (s : Kernel ncpu) (c : Fin ncpu) (p : ProcId) : Prop :=
  s.cpu c = some p ∧ (s.proc p).state = .running

instance (s : Kernel ncpu) (c : Fin ncpu) (p : ProcId) : Decidable (s.Executes c p) :=
  inferInstanceAs (Decidable (_ ∧ _))

/--
`Step s op t`: the operation `op` can happen in `s` and leads to `t`. A system call is made by the
process the CPU executes, the scheduler runs on a CPU that executes none, and a process under
construction is touched only while it is an embryo.
-/
inductive Step (s : Kernel ncpu) : Op ncpu → Except Fault (Kernel ncpu) → Prop where
  | allocproc : Step s .allocproc (.ok s.allocproc.2)
  | allocFail {np} : (s.proc np).state = .embryo → Step s (.allocFail np) (.ok (s.allocFail np))
  | userinitSetup {p} :
      (s.proc p).state = .embryo → Step s (.userinitSetup p) (.ok (s.userinitSetup p))
  | forkCopy {c np p} :
      s.Executes c p → (s.proc np).state = .embryo →
        Step s (.forkCopy c np) (.ok (s.forkCopy p np))
  | enqueueNew {np} : (s.proc np).state = .embryo → Step s (.enqueueNew np) (s.makeRunnable np)
  | yield {c p} : s.Executes c p → Step s (.yield c) (s.yield c p)
  | sleep {c p chan} :
      s.Executes c p → Step s (.sleep c chan) (.ok (s.sleep c p chan))
  | sleepResume {c p} :
      s.Executes c p → Step s (.sleepResume c) (.ok (s.sleepResume p))
  | wakeup {chan} : Step s (.wakeup chan) (s.wakeup1 chan)
  | kill {pid} : Step s (.kill pid) ((s.kill pid).map Prod.snd)
  | exit {c p status} :
      s.Executes c p → Step s (.exit c status) (s.exit c p status)
  | wait {c p} : s.Executes c p → Step s (.wait c) (.ok (s.wait c p).2)
  | schedule {c} : s.cpu c = none → Step s (.schedule c) (s.scheduler c)

end Kernel
end Xv6
