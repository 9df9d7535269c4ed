import Xv6.Log.Impl.Commit

/-!
`begin_op`, `log_write` and `end_op` of `log.c`, called by any number of processes. A step is a
region under `log.lock`, an unlocked test of `log_write`, or a block operation of `commit`.
-/

namespace Xv6

-- struct log: the loop of log_write, where i = log.lh.n if the block is not found
def LogHeader.record (lh : LogHeader) (b : BitVec 32) : Except Fault LogHeader :=
  let i := lh.blocks.idxOf b
  if h : i < LOGSIZE then
    .ok
      { n := if i = lh.n then lh.n + 1 else lh.n
        block := Function.update lh.block ⟨i, h⟩ b
        n_le := by have := lh.n_le; split <;> omega }
  else
    .error .outOfBounds

inductive LogPc where
  | idle
  | waiting
  | inOp (k : Nat)
  -- in log_write: the size of the transaction is tested
  | tested (k : Nat) (b : BitVec 32)
  -- in log_write: before acquire(&log.lock)
  | locking (k : Nat) (b : BitVec 32)
  | commit
  | writeLog (tail : Nat)
  | writeHead
  | installTrans (tail : Nat)
  | clear
  | eraseHead
  -- in end_op: commit() has returned
  | committed
  deriving DecidableEq, Repr

structure LogSys (ι : Type) where
  dev : LogDev
  outstanding : Int
  committing : Bool
  pc : ι → LogPc
  fault : Option Fault
  -- history: operations are numbered, `epoch k` counts the commits before operation `k` began
  nextOp : Nat
  epoch : Nat → Nat
  logged : List (Nat × BitVec 32)
  commits : List (List (BitVec 32))

inductive LogEvent (ι : Type) where
  | beginOp (p : ι)
  | logWrite (p : ι) (b : BitVec 32) (data : Block)
  | testOutstanding (p : ι)
  | record (p : ι)
  | endOp (p : ι)
  | commit (p : ι)

namespace LogSys

variable {ι : Type}

def initlog (d : Nat → Block) : Except Fault (LogSys ι) := do
  let sb := readsb d
  let dev ← LogDev.recoverFromLog sb.logstart (LogDev.boot d)
  return {
    dev := dev
    outstanding := 0
    committing := false
    pc := fun _ => .idle
    fault := none
    nextOp := 0
    epoch := fun _ => 0
    logged := []
    commits := [] }

def panic (s : LogSys ι) (msg : String) : LogSys ι :=
  { s with fault := some (.panic msg) }

variable [DecidableEq ι]

def goto (s : LogSys ι) (p : ι) (l : LogPc) : LogSys ι :=
  { s with pc := Function.update s.pc p l }

def beginOp (s : LogSys ι) (p : ι) : LogSys ι :=
  if s.committing then
    s.goto p .waiting
  else if s.dev.lh.n + (s.outstanding + 1) * MAXOPBLOCKS > LOGSIZE then
    s.goto p .waiting
  else
    { s.goto p (.inOp s.nextOp) with
      outstanding := s.outstanding + 1
      nextOp := s.nextOp + 1
      epoch := Function.update s.epoch s.nextOp s.commits.length }

def endOp (s : LogSys ι) (p : ι) : LogSys ι :=
  let s := { s with outstanding := s.outstanding - 1 }
  if s.committing then
    s.panic "log.committing"
  else if s.outstanding = 0 then
    { s.goto p .commit with committing := true }
  else
    s.goto p .idle

def logWrite (size : Nat) (s : LogSys ι) (p : ι) (k : Nat) (b : BitVec 32) (data : Block)
    : LogSys ι :=
  let cache := Function.update s.dev.cache b.toNat (some data)
  let s := { s with dev := { s.dev with cache := cache } }
  if s.dev.lh.n ≥ LOGSIZE ∨ s.dev.lh.n ≥ size - 1 then
    s.panic "too big a transaction"
  else
    s.goto p (.tested k b)

def testOutstanding (s : LogSys ι) (p : ι) (k : Nat) (b : BitVec 32) : LogSys ι :=
  if s.outstanding < 1 then
    s.panic "log_write outside of trans"
  else
    s.goto p (.locking k b)

def record (s : LogSys ι) (p : ι) (k : Nat) (b : BitVec 32) : LogSys ι :=
  match s.dev.lh.record b with
  | .ok lh =>
    { s.goto p (.inOp k) with
      dev := { s.dev with lh := lh }
      logged := s.logged ++ [(k, b)] }
  | .error f => { s with fault := some f }

def commit (start : Nat) (s : LogSys ι) (p : ι) : Option (LogSys ι) :=
  match s.pc p with
  | .commit =>
    if s.dev.lh.n > 0 then
      some (s.goto p (.writeLog 0))
    else
      some { s.goto p .committed with commits := s.commits ++ [[]] }
  | .writeLog tail =>
    if tail < s.dev.lh.n then
      some { s.goto p (.writeLog (tail + 1)) with dev := LogDev.writeLog.go start s.dev tail }
    else
      some (s.goto p .writeHead)
  | .writeHead =>
    some { s.goto p (.installTrans 0) with
      dev := LogDev.writeHead start s.dev
      commits := s.commits ++ [s.dev.lh.blocks] }
  | .installTrans tail =>
    if tail < s.dev.lh.n then
      some { s.goto p (.installTrans (tail + 1)) with
        dev := LogDev.installTrans.go start s.dev tail }
    else
      some (s.goto p .clear)
  | .clear => some { s.goto p .eraseHead with dev := { s.dev with lh := s.dev.lh.clear } }
  | .eraseHead => some { s.goto p .committed with dev := LogDev.writeHead start s.dev }
  | .committed => some { s.goto p .idle with committing := false }
  | _ => none

def step (start size : Nat) (s : LogSys ι) (e : LogEvent ι) : Option (LogSys ι) :=
  if s.fault.isSome then
    none
  else
    match e with
    | .beginOp p =>
      match s.pc p with
      | .idle => some (s.beginOp p)
      | .waiting => some (s.beginOp p)
      | _ => none
    | .logWrite p b data =>
      match s.pc p with
      | .inOp k => some (logWrite size s p k b data)
      | _ => none
    | .testOutstanding p =>
      match s.pc p with
      | .tested k b => some (s.testOutstanding p k b)
      | _ => none
    | .record p =>
      match s.pc p with
      | .locking k b => some (s.record p k b)
      | _ => none
    | .endOp p =>
      match s.pc p with
      | .inOp _ => some (s.endOp p)
      | _ => none
    | .commit p => s.commit start p

def Step (start size : Nat) (s : LogSys ι) (e : LogEvent ι) (t : LogSys ι) : Prop :=
  step start size s e = some t

end LogSys

end Xv6
