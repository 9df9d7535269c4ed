import Xv6.Proc.Impl.Sched
import Xv6.Vm.Impl.Pgdir

/-!
`ptable.lock` and the `pushcli` depth of the CPU during one call. What the other CPUs do, and what
happens while the caller does not run, is given by a `World`: the table that the caller finds when it
has got the lock or looks at it without, and the CPU on which a scheduler resumes it.
-/

namespace Xv6

structure CpuFlags where
  ncli : Int
  intena : Bool
  -- FL_IF of eflags
  interrupts : Bool

structure Spaces where
  mem : Mem
  cr3 : BitVec 32
  pgdir : ProcId → BitVec 32
  sz : ProcId → BitVec 32

structure World (ncpu : Nat) where
  table : Nat → Kernel ncpu → Kernel ncpu
  spaces : Nat → Spaces
  resume : Nat → Fin ncpu
  flags : Nat → Fin ncpu → CpuFlags

structure LockSys (ncpu : Nat) where
  kernel : Kernel ncpu
  -- the CPU that has locked ptable.lock
  lock : Option (Fin ncpu)
  flags : Fin ncpu → CpuFlags
  -- the CPU that the caller runs on
  cpu : Fin ncpu
  turn : Nat

namespace LockSys

variable {ncpu : Nat}

def setFlags (s : LockSys ncpu) (f : CpuFlags) : LockSys ncpu :=
  { s with flags := Function.update s.flags s.cpu f }

def setKernel (s : LockSys ncpu) (k : Kernel ncpu) : LockSys ncpu :=
  { s with kernel := k }

def others (w : World ncpu) (s : LockSys ncpu) : LockSys ncpu :=
  { s with kernel := w.table s.turn s.kernel, turn := s.turn + 1 }

-- A stretch of code without the lock. With interrupts enabled, the timer can make the caller yield,
-- and it goes on where it is resumed, with interrupts enabled.
def unlocked (w : World ncpu) (s : LockSys ncpu) : LockSys ncpu :=
  if (s.flags s.cpu).interrupts then
    let cpu := w.resume s.turn
    let f := w.flags s.turn
    { s.others w with
      lock := none
      cpu := cpu
      flags := Function.update f cpu ⟨0, (f cpu).intena, true⟩ }
  else
    s.others w

def mycpu (s : LockSys ncpu) : Except Fault (Fin ncpu) :=
  if (s.flags s.cpu).interrupts then
    .error (.panic "mycpu called with interrupts enabled\n")
  else
    .ok s.cpu

def pushcli (s : LockSys ncpu) : LockSys ncpu :=
  let f := s.flags s.cpu
  let intena := if f.ncli = 0 then f.interrupts else f.intena
  s.setFlags ⟨f.ncli + 1, intena, false⟩

def popcli (s : LockSys ncpu) : Except Fault (LockSys ncpu) :=
  let f := s.flags s.cpu
  if f.interrupts then
    .error (.panic "popcli - interruptible")
  else if f.ncli - 1 < 0 then
    .error (.panic "popcli")
  else
    .ok (s.setFlags ⟨f.ncli - 1, f.intena, f.ncli - 1 = 0 ∧ f.intena⟩)

def holding (s : LockSys ncpu) : Except Fault (Bool × LockSys ncpu) := do
  let s := s.pushcli
  let c ← s.mycpu
  let r := s.lock = some c
  let s ← s.popcli
  return (r, s)

-- The loop ends when the others have released the lock.
def acquire (w : World ncpu) (s : LockSys ncpu) : Except Fault (LockSys ncpu) := do
  let (r, s) ← s.pushcli.holding
  if r then
    .error (.panic "acquire")
  else
    let s := s.others w
    let c ← s.mycpu
    return { s with lock := some c }

def release (s : LockSys ncpu) : Except Fault (LockSys ncpu) := do
  let (r, s) ← s.holding
  if !r then
    .error (.panic "release")
  else
    let s := { s with lock := none }
    s.popcli

def myproc (s : LockSys ncpu) : Except Fault (Option ProcId × LockSys ncpu) := do
  let s := s.pushcli
  let c ← s.mycpu
  let p := s.kernel.cpu c
  let s ← s.popcli
  return (p, s)

-- swtch returns when the scheduler of some CPU, which has taken the lock, has chosen the caller
def swtch (w : World ncpu) (s : LockSys ncpu) : LockSys ncpu :=
  let cpu := w.resume s.turn
  let f := w.flags s.turn
  { s.others w with
    lock := some cpu
    cpu := cpu
    flags := Function.update f cpu ⟨1, (f cpu).intena, false⟩ }

def sched (w : World ncpu) (s : LockSys ncpu) : Except Fault (LockSys ncpu) := do
  let (p, s) ← s.myproc
  let (r, s) ← s.holding
  if !r then
    .error (.panic "sched ptable.lock")
  else
    let c ← s.mycpu
    if (s.flags c).ncli ≠ 1 then
      .error (.panic "sched locks")
    else
      match p with
      | none => .error .nullDeref
      | some p =>
        if (s.kernel.proc p).state = .running then
          .error (.panic "sched running")
        else if (s.flags s.cpu).interrupts then
          .error (.panic "sched interruptible")
        else
          let intena := (s.flags c).intena
          let s := s.swtch w
          return s.setFlags { s.flags s.cpu with intena := intena }

def getProcbyPID (w : World ncpu) (pid : BitVec 32) (s : LockSys ncpu)
    : Except Fault (Option ProcId × LockSys ncpu) := do
  let s ← s.acquire w
  match s.kernel.findPid pid with
  | none => return (none, s)
  | some p =>
    let s ← s.release
    return (some p, s)

-- The arguments of system calls are what argint has fetched, or nothing if it fails.
def sysGetprio (w : World ncpu) (pid : Option (BitVec 32)) (s : LockSys ncpu)
    : Except Fault (BitVec 32 × LockSys ncpu) :=
  match pid with
  | none => return (-1, s)
  | some pid => do
    let (p, s) ← s.getProcbyPID w pid
    match p with
    | none => return (-1, s)
    | some p =>
      let s := s.unlocked w
      return ((s.kernel.proc p).prio, s)

def setNewPrio (w : World ncpu) (p : ProcId) (prio : BitVec 32) (s : LockSys ncpu)
    : Except Fault (LockSys ncpu) := do
  let prt ← Kernel.priotableIdx (s.kernel.proc p).prio
  let s ← s.acquire w
  let k ← s.kernel.setNewPrio p prio prt
  (s.setKernel k).release

def sysSetprio (w : World ncpu) (pid trampas : Option (BitVec 32)) (s : LockSys ncpu)
    : Except Fault (BitVec 32 × LockSys ncpu) :=
  match pid, trampas with
  | none, _ => return (-1, s)
  | some _, none => return (-1, s)
  | some pid, some a => do
    let (p, s) ← s.getProcbyPID w pid
    match p with
    | none => return (-1, s)
    | some p =>
      let s := s.unlocked w
      let s ←
        if (s.kernel.proc p).state = .runnable then
          (s.unlocked w).setNewPrio w p a
        else
          let s := s.unlocked w
          .ok (s.setKernel (s.kernel.modifyProc p ({ · with prio := a })))
      let s := s.unlocked w
      return ((s.kernel.proc p).prio, s)

def phmemLoop (w : World ncpu) (p : ProcId)
    : Nat → BitVec 32 → BitVec 32 → LockSys ncpu → Except Fault (BitVec 32 × LockSys ncpu)
  | 0, _, _, _ => .error .diverges
  | fuel + 1, a, count, s =>
    let sp := w.spaces s.turn
    let s := s.unlocked w
    if a ≤ sp.sz p then do
      let pte ← match (sp.mem.walkpgdir (sp.pgdir p) a false).1 with
        | none => sp.mem.nullWord sp.cr3
        | some pte => .ok (sp.mem.get pte)
      let count := if pteP pte then count + 1 else count
      phmemLoop w p fuel (a + 4096) count s
    else
      .ok (count, s)

def sysPhmem (w : World ncpu) (fuel : Nat) (pid : Option (BitVec 32)) (s : LockSys ncpu)
    : Except Fault (BitVec 32 × LockSys ncpu) :=
  match pid with
  | none => return (-1, s)
  | some pid => do
    let (p, s) ← s.getProcbyPID w pid
    match p with
    | none => return (-1, s)
    | some p =>
      let (count, s) ← phmemLoop w p fuel 0 0 s
      return ((count * 4096).sdiv 1024, s)

def kill (w : World ncpu) (pid : BitVec 32) (s : LockSys ncpu)
    : Except Fault (Int × LockSys ncpu) := do
  let s ← s.acquire w
  let (r, k) ← s.kernel.kill pid
  let s ← (s.setKernel k).release
  return (r, s)

def wakeup (w : World ncpu) (chan : Chan) (s : LockSys ncpu) : Except Fault (LockSys ncpu) := do
  let s ← s.acquire w
  let k ← s.kernel.wakeup1 chan
  (s.setKernel k).release

def yield (w : World ncpu) (s : LockSys ncpu) : Except Fault (LockSys ncpu) := do
  let s ← s.acquire w
  let (p, s) ← s.myproc
  match p with
  | none => .error .nullDeref
  | some p =>
    let k ← s.kernel.makeRunnable p
    let s ← (s.setKernel k).sched w
    s.release

-- kstack tells whether kalloc returns a page
def allocproc (w : World ncpu) (kstack : Bool) (s : LockSys ncpu)
    : Except Fault (Option ProcId × LockSys ncpu) := do
  let s ← s.acquire w
  let (p, k) := s.kernel.allocproc
  let s ← (s.setKernel k).release
  match p with
  | none => return (none, s)
  | some p =>
    let s := s.unlocked w
    if !kstack then
      return (none, s.setKernel (s.kernel.allocFail p))
    else
      return (some p, s)

-- pgdir tells whether copyuvm returns a page directory
def fork (w : World ncpu) (kstack pgdir : Bool) (s : LockSys ncpu)
    : Except Fault (BitVec 32 × LockSys ncpu) := do
  let (curproc, s) ← s.myproc
  let (np, s) ← s.allocproc w kstack
  match np with
  | none => return (-1, s)
  | some np =>
    match curproc with
    | none => .error .nullDeref
    | some curproc =>
      let s := s.unlocked w
      if !pgdir then
        return (-1, s.setKernel (s.kernel.allocFail np))
      else
        let s := s.setKernel (s.kernel.forkCopy curproc np)
        let pid := (s.kernel.proc np).pid
        let s := s.unlocked w
        let s ← s.acquire w
        let k ← s.kernel.makeRunnable np
        let s ← (s.setKernel k).release
        return (pid, s)

def sleep (w : World ncpu) (chan : Chan) (s : LockSys ncpu) : Except Fault (LockSys ncpu) := do
  let (p, s) ← s.myproc
  match p with
  | none => .error (.panic "sleep")
  | some p =>
    let k := s.kernel.modifyProc p ({ · with chan := chan, state := .sleeping })
    let s ← (s.setKernel k).sched w
    return s.setKernel (s.kernel.sleepResume p)

def waitLoop (w : World ncpu) (curproc : ProcId)
    : Nat → LockSys ncpu → Except Fault (BitVec 32 × LockSys ncpu)
  | 0, _ => .error .diverges
  | fuel + 1, s =>
    match s.kernel.wait s.cpu curproc with
    | (.reaped pid _, k) => do
      let s ← (s.setKernel k).release
      return (pid, s)
    | (.noChild, _) => do
      let s ← s.release
      return (-1, s)
    | (.sleeps, _) => do
      let s ← s.sleep w (.proc curproc)
      waitLoop w curproc fuel s

def wait (w : World ncpu) (fuel : Nat) (s : LockSys ncpu)
    : Except Fault (BitVec 32 × LockSys ncpu) := do
  let (curproc, s) ← s.myproc
  let s ← (s.unlocked w).acquire w
  match curproc with
  | none => .error .nullDeref
  | some curproc => waitLoop w curproc fuel s

inductive Call where
  | sysGetprio (pid : Option (BitVec 32))
  | sysSetprio (pid trampas : Option (BitVec 32))
  | sysPhmem (fuel : Nat) (pid : Option (BitVec 32))
  | kill (pid : BitVec 32)
  | fork (kstack pgdir : Bool)
  | wait (fuel : Nat)
  | wakeup (chan : Chan)
  | yield
  | getProcbyPID (pid : BitVec 32)

def Call.target : Call → Option (BitVec 32)
  | .sysGetprio pid | .sysPhmem _ pid => pid
  | .sysSetprio pid trampas => if trampas.isSome then pid else none
  | .getProcbyPID pid => some pid
  | .kill _ | .fork _ _ | .wait _ | .wakeup _ | .yield => none

def call (w : World ncpu) (s : LockSys ncpu) : Call → Except Fault (LockSys ncpu)
  | .sysGetprio pid => Prod.snd <$> s.sysGetprio w pid
  | .sysSetprio pid trampas => Prod.snd <$> s.sysSetprio w pid trampas
  | .sysPhmem fuel pid => Prod.snd <$> s.sysPhmem w fuel pid
  | .kill pid => Prod.snd <$> s.kill w pid
  | .fork kstack pgdir => Prod.snd <$> s.fork w kstack pgdir
  | .wait fuel => Prod.snd <$> s.wait w fuel
  | .wakeup chan => s.wakeup w chan
  | .yield => s.yield w
  | .getProcbyPID pid => Prod.snd <$> s.getProcbyPID w pid

end LockSys
end Xv6
