import Xv6.Proc.Lemmas.Life

/-!
The protocol of `sleep` and `wakeup`, lock by lock. Processes wait for a condition that the lock `lk`
protects, make it true and wake the others up, or call `kill`; `lk` may be `ptable.lock` itself. The
process table is the view of `Life`, on which `wakeup1` and `kill` are known as functions.
-/

namespace Xv6

inductive Lock where
  | ptable
  | other
  deriving DecidableEq, Repr

inductive Agent where
  | proc (p : ProcId)
  -- the scheduler of the CPU that a process has left
  | sched
  deriving DecidableEq, Repr

inductive SleepPc where
  | outside
  -- while(!condition) sleep(chan, lk), with lk held
  | waitTest
  | waitDone
  -- in sleep: before acquire(&ptable.lock), before release(lk), before the assignments, before sched
  | sleepEnter
  | sleepBoth
  | sleepSet
  | sleepSched
  | asleep
  -- sched has returned; before acquire(lk)
  | woken
  | reacquire
  -- lk is held, before and after the condition is made true
  | wakerHold
  | wakerSet
  -- wakeup(chan) with lk held: before wakeup1, before release(&ptable.lock), before release(lk)
  | scanIn
  | scannedIn
  | wakerTail
  -- wakeup(chan) after release(lk)
  | wakerFree
  | scanOut
  | scannedOut
  | killHold (pid : BitVec 32)
  | killDone
  deriving DecidableEq, Repr

namespace SleepPc

def pending : SleepPc → Bool
  | .wakerSet | .scanIn | .scannedIn | .wakerFree | .scanOut | .scannedOut => true
  | _ => false

end SleepPc

structure SleepSys where
  lk : Lock
  chan : Chan
  condition : Bool
  holder : Lock → Option Agent
  pc : ProcId → SleepPc
  table : Family

namespace SleepSys

def setPc (s : SleepSys) (p : ProcId) (pc : SleepPc) : SleepSys :=
  { s with pc := Function.update s.pc p pc }

def setHolder (s : SleepSys) (l : Lock) (a : Option Agent) : SleepSys :=
  { s with holder := Function.update s.holder l a }

def acquire (s : SleepSys) (l : Lock) (p : ProcId) : SleepSys := s.setHolder l (some (.proc p))

def release (s : SleepSys) (l : Lock) : SleepSys := s.setHolder l none

def setTable (s : SleepSys) (F : Family) : SleepSys := { s with table := F }

/--
The steps of the process `p`, or of a scheduler (`none`).
-/
inductive Step (s : SleepSys) : Option ProcId → SleepSys → Prop where
  | waitAcquire {p} :
      s.pc p = .outside → s.holder s.lk = none →
        Step s (some p) ((s.acquire s.lk p).setPc p .waitTest)
  | testTrue {p} :
      s.pc p = .waitTest → s.condition = true → Step s (some p) (s.setPc p .waitDone)
  | testFalse {p} :
      s.pc p = .waitTest → s.condition = false → Step s (some p) (s.setPc p .sleepEnter)
  | giveUp {p} :
      s.pc p = .waitTest → (s.table p).killed = true → Step s (some p) (s.setPc p .waitDone)
  | spoil {p} :
      s.pc p = .waitDone ∨ s.pc p = .wakerHold →
        Step s (some p) { s with condition := false }
  | waitRelease {p} :
      s.pc p = .waitDone → Step s (some p) ((s.release s.lk).setPc p .outside)
  -- lk == &ptable.lock
  | sleepSame {p} :
      s.pc p = .sleepEnter → s.lk = .ptable → Step s (some p) (s.setPc p .sleepSet)
  | sleepAcquire {p} :
      s.pc p = .sleepEnter → s.lk ≠ .ptable → s.holder .ptable = none →
        Step s (some p) ((s.acquire .ptable p).setPc p .sleepBoth)
  | sleepRelease {p} :
      s.pc p = .sleepBoth → s.lk ≠ .ptable →
        Step s (some p) ((s.release s.lk).setPc p .sleepSet)
  | sleepSet {p} :
      s.pc p = .sleepSet →
        Step s (some p)
          ((s.setTable (s.table.modify p ({ · with chan := s.chan, state := .sleeping }))).setPc p
            .sleepSched)
  | sched {p} :
      s.pc p = .sleepSched → Step s (some p) ((s.setHolder .ptable (some .sched)).setPc p .asleep)
  | schedulerAcquire :
      s.holder .ptable = none → Step s none (s.setHolder .ptable (some .sched))
  | schedulerRelease :
      s.holder .ptable = some .sched → Step s none (s.release .ptable)
  | schedule {p} :
      s.holder .ptable = some .sched → s.pc p = .asleep → (s.table p).state = .runnable →
        Step s (some p)
          (((s.acquire .ptable p).setTable (s.table.modify p ({ · with state := .running }))).setPc p
            .woken)
  | wokenSame {p} :
      s.pc p = .woken → s.lk = .ptable →
        Step s (some p) ((s.setTable (s.table.modify p ({ · with chan := .null }))).setPc p .waitTest)
  | wokenRelease {p} :
      s.pc p = .woken → s.lk ≠ .ptable →
        Step s (some p)
          (((s.release .ptable).setTable (s.table.modify p ({ · with chan := .null }))).setPc p
            .reacquire)
  | reacquire {p} :
      s.pc p = .reacquire → s.holder s.lk = none →
        Step s (some p) ((s.acquire s.lk p).setPc p .waitTest)
  | wakerAcquire {p} :
      s.pc p = .outside → s.holder s.lk = none →
        Step s (some p) ((s.acquire s.lk p).setPc p .wakerHold)
  | wakerLeave {p} :
      s.pc p = .wakerHold → Step s (some p) ((s.release s.lk).setPc p .outside)
  | makeTrue {p} :
      s.pc p = .wakerHold → Step s (some p) ({ s with condition := true }.setPc p .wakerSet)
  -- exit and wait call wakeup1 with ptable.lock held
  | wakeup1 {p} :
      s.pc p = .wakerSet → s.lk = .ptable →
        Step s (some p) ((s.setTable (s.table.wake s.chan)).setPc p .wakerTail)
  | wakeupIn {p} :
      s.pc p = .wakerSet → s.lk ≠ .ptable → s.holder .ptable = none →
        Step s (some p) ((s.acquire .ptable p).setPc p .scanIn)
  | scanIn {p} :
      s.pc p = .scanIn →
        Step s (some p) ((s.setTable (s.table.wake s.chan)).setPc p .scannedIn)
  | releaseIn {p} :
      s.pc p = .scannedIn → s.lk ≠ .ptable →
        Step s (some p) ((s.release .ptable).setPc p .wakerTail)
  | tailRelease {p} :
      s.pc p = .wakerTail → Step s (some p) ((s.release s.lk).setPc p .outside)
  | wakerRelease {p} :
      s.pc p = .wakerSet → Step s (some p) ((s.release s.lk).setPc p .wakerFree)
  | wakeupOut {p} :
      s.pc p = .wakerFree → s.holder .ptable = none →
        Step s (some p) ((s.acquire .ptable p).setPc p .scanOut)
  | scanOut {p} :
      s.pc p = .scanOut →
        Step s (some p) ((s.setTable (s.table.wake s.chan)).setPc p .scannedOut)
  | releaseOut {p} :
      s.pc p = .scannedOut → Step s (some p) ((s.release .ptable).setPc p .outside)
  | killAcquire {p pid} :
      s.pc p = .outside → s.holder .ptable = none →
        Step s (some p) ((s.acquire .ptable p).setPc p (.killHold pid))
  | kill {p pid} :
      s.pc p = .killHold pid → Step s (some p) ((s.setTable (s.table.kill pid)).setPc p .killDone)
  | killRelease {p} :
      s.pc p = .killDone → Step s (some p) ((s.release .ptable).setPc p .outside)

structure Start (s : SleepSys) : Prop where
  holder : ∀ l, s.holder l = none
  pc : ∀ p, s.pc p = .outside
  sleeping : ∀ p, (s.table p).state = .sleeping → (s.table p).chan ≠ s.chan

end SleepSys
end Xv6
