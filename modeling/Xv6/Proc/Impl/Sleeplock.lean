import Xv6.Proc.Impl.Sleep
import Xv6.Proc.Lemmas.Wait

/-!
One sleep lock and the processes that call `acquiresleep`, `holdingsleep`, `releasesleep` and `kill`,
with `sleep` and `wakeup` lock by lock as in `SleepSys`. `lk->lk` is the lock `other` there.
-/

namespace Xv6

structure Sleeplock where
  locked : BitVec 32
  pid : BitVec 32
  deriving DecidableEq, Repr

def initsleeplock : Sleeplock where
  locked := 0
  pid := 0

def Sleeplock.holding (lk : Sleeplock) (pid : BitVec 32) : Bool :=
  lk.locked != 0 && lk.pid == pid

inductive SleeplockPc where
  | outside
  -- acquiresleep: before while(lk->locked), before the two assignments, before release(&lk->lk)
  | acquireTest
  | acquireSet
  | acquirePid
  | acquireDone
  -- sleep(lk, &lk->lk)
  | sleepEnter
  | sleepBoth
  | sleepSet
  | sleepSched
  | asleep
  | woken
  | reacquire
  -- releasesleep: before the two assignments
  | releaseSet
  | releasePid
  -- wakeup(lk): before acquire(&ptable.lock), before wakeup1, before release(&ptable.lock)
  | wakeup
  | wakeupScan
  | wakeupDone
  | releaseDone
  -- holdingsleep: before r is computed, before release(&lk->lk)
  | holdingTest
  | holdingDone (r : Bool)
  | killHold (pid : BitVec 32)
  | killDone
  deriving DecidableEq, Repr

inductive SleeplockEvent where
  | step (p : ProcId)
  | sched
  -- holdingsleep returns r to p
  | holdingsleep (p : ProcId) (r : Bool)
  deriving DecidableEq, Repr

structure SleeplockSys where
  -- the address of the lock
  lk : Chan
  lock : Sleeplock
  holder : Lock → Option Agent
  pc : ProcId → SleeplockPc
  -- acquiresleep has returned to the process and its releasesleep has not stored locked = 0
  owns : ProcId → Bool
  table : Family

namespace SleeplockSys

def setPc (s : SleeplockSys) (p : ProcId) (pc : SleeplockPc) : SleeplockSys :=
  { s with pc := Function.update s.pc p pc }

def setHolder (s : SleeplockSys) (l : Lock) (a : Option Agent) : SleeplockSys :=
  { s with holder := Function.update s.holder l a }

def acquire (s : SleeplockSys) (l : Lock) (p : ProcId) : SleeplockSys :=
  s.setHolder l (some (.proc p))

def release (s : SleeplockSys) (l : Lock) : SleeplockSys := s.setHolder l none

def setTable (s : SleeplockSys) (F : Family) : SleeplockSys := { s with table := F }

def setOwns (s : SleeplockSys) (p : ProcId) (b : Bool) : SleeplockSys :=
  { s with owns := Function.update s.owns p b }

def setLocked (s : SleeplockSys) (locked : BitVec 32) : SleeplockSys :=
  { s with lock := { s.lock with locked } }

def setPid (s : SleeplockSys) (pid : BitVec 32) : SleeplockSys :=
  { s with lock := { s.lock with pid } }

/--
The steps of the processes and of the schedulers. A process that is neither UNUSED nor EMBRYO nor
ZOMBIE may start any call at any time, except that only an owner calls `releasesleep`.
-/
inductive Step (s : SleeplockSys) : SleeplockEvent → SleeplockSys → Prop where
  | acquiresleep {p} :
      s.pc p = .outside → (s.table p).state.Alive → s.holder .other = none →
        Step s (.step p) ((s.acquire .other p).setPc p .acquireTest)
  | testLocked {p} :
      s.pc p = .acquireTest → s.lock.locked ≠ 0 → Step s (.step p) (s.setPc p .sleepEnter)
  | testFree {p} :
      s.pc p = .acquireTest → s.lock.locked = 0 → Step s (.step p) (s.setPc p .acquireSet)
  | acquireSet {p} :
      s.pc p = .acquireSet → Step s (.step p) ((s.setLocked 1).setPc p .acquirePid)
  | acquirePid {p} :
      s.pc p = .acquirePid → Step s (.step p) ((s.setPid (s.table p).pid).setPc p .acquireDone)
  | acquireRelease {p} :
      s.pc p = .acquireDone →
        Step s (.step p) (((s.release .other).setOwns p true).setPc p .outside)
  | sleepAcquire {p} :
      s.pc p = .sleepEnter → s.holder .ptable = none →
        Step s (.step p) ((s.acquire .ptable p).setPc p .sleepBoth)
  | sleepRelease {p} :
      s.pc p = .sleepBoth → Step s (.step p) ((s.release .other).setPc p .sleepSet)
  | sleepSet {p} :
      s.pc p = .sleepSet →
        Step s (.step p)
          ((s.setTable (s.table.modify p ({ · with chan := s.lk, state := .sleeping }))).setPc p
            .sleepSched)
  | sched {p} :
      s.pc p = .sleepSched →
        Step s (.step p) ((s.setHolder .ptable (some .sched)).setPc p .asleep)
  | schedulerAcquire :
      s.holder .ptable = none → Step s .sched (s.setHolder .ptable (some .sched))
  | schedulerRelease :
      s.holder .ptable = some .sched → Step s .sched (s.release .ptable)
  | schedule {p} :
      s.holder .ptable = some .sched → s.pc p = .asleep → (s.table p).state = .runnable →
        Step s (.step p)
          (((s.acquire .ptable p).setTable (s.table.modify p ({ · with state := .running }))).setPc p
            .woken)
  | wokenRelease {p} :
      s.pc p = .woken →
        Step s (.step p)
          (((s.release .ptable).setTable (s.table.modify p ({ · with chan := .null }))).setPc p
            .reacquire)
  | reacquire {p} :
      s.pc p = .reacquire → s.holder .other = none →
        Step s (.step p) ((s.acquire .other p).setPc p .acquireTest)
  | releasesleep {p} :
      s.pc p = .outside → s.owns p = true → s.holder .other = none →
        Step s (.step p) ((s.acquire .other p).setPc p .releaseSet)
  | releaseSet {p} :
      s.pc p = .releaseSet →
        Step s (.step p) (((s.setLocked 0).setOwns p false).setPc p .releasePid)
  | releasePid {p} :
      s.pc p = .releasePid → Step s (.step p) ((s.setPid 0).setPc p .wakeup)
  | wakeupAcquire {p} :
      s.pc p = .wakeup → s.holder .ptable = none →
        Step s (.step p) ((s.acquire .ptable p).setPc p .wakeupScan)
  | wakeup1 {p} :
      s.pc p = .wakeupScan →
        Step s (.step p) ((s.setTable (s.table.wake s.lk)).setPc p .wakeupDone)
  | wakeupRelease {p} :
      s.pc p = .wakeupDone → Step s (.step p) ((s.release .ptable).setPc p .releaseDone)
  | releaseRelease {p} :
      s.pc p = .releaseDone → Step s (.step p) ((s.release .other).setPc p .outside)
  | holdingsleep {p} :
      s.pc p = .outside → (s.table p).state.Alive → s.holder .other = none →
        Step s (.step p) ((s.acquire .other p).setPc p .holdingTest)
  | holdingTest {p} :
      s.pc p = .holdingTest →
        Step s (.step p) (s.setPc p (.holdingDone (s.lock.holding (s.table p).pid)))
  | holdingReturn {p r} :
      s.pc p = .holdingDone r →
        Step s (.holdingsleep p r) ((s.release .other).setPc p .outside)
  | killAcquire {p pid} :
      s.pc p = .outside → (s.table p).state.Alive → s.holder .ptable = none →
        Step s (.step p) ((s.acquire .ptable p).setPc p (.killHold pid))
  | kill {p pid} :
      s.pc p = .killHold pid →
        Step s (.step p) ((s.setTable (s.table.kill pid)).setPc p .killDone)
  | killRelease {p} :
      s.pc p = .killDone → Step s (.step p) ((s.release .ptable).setPc p .outside)

-- Nobody is in a call or sleeps on the lock, and the processes have pids of their own.
structure Start (s : SleeplockSys) : Prop where
  lock : s.lock = initsleeplock
  holder : ∀ l, s.holder l = none
  pc : ∀ p, s.pc p = .outside
  owns : ∀ p, s.owns p = false
  sleeping : ∀ p, (s.table p).state = .sleeping → (s.table p).chan ≠ s.lk
  pids : ∀ p q, (s.table p).state.Alive → (s.table q).state.Alive →
    (s.table p).pid = (s.table q).pid → p = q

end SleeplockSys
end Xv6
