import Xv6.Basic
import Xv6.Data.Ring
import Xv6.Data.Transition

/-!
`pipe.c`: the stretches of `pipewrite` and `piperead` that run with `p->lock` held, from `acquire` or
from the return of `sleep` to the next `sleep` or `release`, and the system of any number of
processes that take such steps on one pipe.
-/

namespace Xv6

abbrev PIPESIZE : Nat := 512

instance : NeZero PIPESIZE := ⟨by decide⟩

abbrev Byte := BitVec 8

structure Pipe where
  data : Fin PIPESIZE → Byte
  nread : BitVec 32
  nwrite : BitVec 32
  readopen : Bool
  writeopen : Bool

namespace Pipe

def Full (p : Pipe) : Prop := p.nwrite = p.nread + BitVec.ofNat 32 PIPESIZE

instance (p : Pipe) : Decidable p.Full := inferInstanceAs (Decidable (_ = _))

def Empty (p : Pipe) : Prop := p.nread = p.nwrite

instance (p : Pipe) : Decidable p.Empty := inferInstanceAs (Decidable (_ = _))

def put (p : Pipe) (b : Byte) : Pipe :=
  { p with data := Function.update p.data (Ring.slot p.nwrite) b, nwrite := p.nwrite + 1 }

def skip (p : Pipe) : Pipe := { p with nread := p.nread + 1 }

inductive WriteResult where
  | returns
  | fails
  -- wakeup(&p->nread), sleep(&p->nwrite, &p->lock)
  | sleeps
  deriving DecidableEq, Repr

/--
The loop of `pipewrite`, with the bytes `addr[i]`, ..., `addr[n - 1]` left, and those that are left
when it ends.
-/
def pipewrite (p : Pipe) (killed : Bool) : List Byte → WriteResult × List Byte × Pipe
  | [] => (.returns, [], p)
  | b :: rest =>
    if p.Full then
      if p.readopen = false ∨ killed = true then
        (.fails, b :: rest, p)
      else
        (.sleeps, b :: rest, p)
    else
      (p.put b).pipewrite killed rest

def pipereadCopy (p : Pipe) : Nat → List Byte × Pipe
  | 0 => ([], p)
  | n + 1 =>
    if p.Empty then
      ([], p)
    else
      let (addr, q) := p.skip.pipereadCopy n
      (p.data (Ring.slot p.nread) :: addr, q)

inductive ReadResult where
  | returns (addr : List Byte)
  | fails
  -- sleep(&p->nread, &p->lock)
  | sleeps
  deriving DecidableEq, Repr

def piperead (p : Pipe) (killed : Bool) (n : Nat) : ReadResult × Pipe :=
  if p.Empty ∧ p.writeopen = true then
    if killed = true then
      (.fails, p)
    else
      (.sleeps, p)
  else
    let (addr, q) := p.pipereadCopy n
    (.returns addr, q)

end Pipe

/--
What a process has to do with the pipe. `call` numbers the calls of `pipewrite`; `asleep` says that
the process is SLEEPING on `&p->nwrite` or `&p->nread`, otherwise it is about to take `p->lock`.
-/
inductive PipePc where
  | idle
  | writing (call : Nat) (rest : List Byte) (asleep : Bool)
  | reading (n : Nat) (asleep : Bool)
  deriving DecidableEq, Repr

namespace PipePc

def wakeReader : PipePc → PipePc
  | .reading n _ => .reading n false
  | pc => pc

def wakeWriter : PipePc → PipePc
  | .writing call rest _ => .writing call rest false
  | pc => pc

def wake : PipePc → PipePc := fun pc => pc.wakeReader.wakeWriter

def Writing : PipePc → Prop
  | .writing _ _ _ => True
  | _ => False

def Reading : PipePc → Prop
  | .reading _ _ => True
  | _ => False

end PipePc

/--
The pipe and its users. `stored` has all the bytes stored so far, each with the number of the call
that stored it, `reads` what the calls of `piperead` have returned, `calls` the buffers of the calls
of `pipewrite`, and `returned` those of them that have returned their last argument.
-/
structure PipeSys (ι : Type) where
  pipe : Pipe
  pc : ι → PipePc
  killed : ι → Bool
  stored : List (Nat × Byte)
  reads : List (List Byte)
  calls : List (List Byte)
  returned : List Nat

inductive PipeEvent (ι : Type) where
  | write (p : ι) (addr : List Byte)
  | read (p : ι) (n : Nat)
  | runWrite (p : ι)
  | runRead (p : ι)
  | close (writable : Bool)
  | kill (p : ι)
  -- kill finds the process running, before the call of sleep that it is about to make
  | killAwake (p : ι)
  -- the slot of a process is taken by a new one
  | replace (p : ι)

namespace PipeSys

variable {ι : Type} [DecidableEq ι]

def setPc (s : PipeSys ι) (p : ι) (pc : PipePc) : PipeSys ι :=
  { s with pc := Function.update s.pc p pc }

def setPipe (s : PipeSys ι) (p : Pipe) : PipeSys ι := { s with pipe := p }

def wakeupRead (s : PipeSys ι) : PipeSys ι := { s with pc := fun p => (s.pc p).wakeReader }

def wakeupWrite (s : PipeSys ι) : PipeSys ι := { s with pc := fun p => (s.pc p).wakeWriter }

def record (s : PipeSys ι) (call : Nat) (rest rest' : List Byte) : PipeSys ι :=
  { s with stored := s.stored ++ (rest.take (rest.length - rest'.length)).map (call, ·) }

def afterWrite (s : PipeSys ι) (p : ι) (call : Nat) (rest : List Byte)
    : Pipe.WriteResult × List Byte × Pipe → PipeSys ι
  | (.returns, rest', q) =>
    let s := ((s.record call rest rest').setPipe q).wakeupRead.setPc p .idle
    { s with returned := s.returned ++ [call] }
  | (.fails, rest', q) => ((s.record call rest rest').setPipe q).setPc p .idle
  | (.sleeps, rest', q) =>
    ((s.record call rest rest').setPipe q).wakeupRead.setPc p (.writing call rest' true)

def afterRead (s : PipeSys ι) (p : ι) (n : Nat) : Pipe.ReadResult × Pipe → PipeSys ι
  | (.returns addr, q) =>
    let s := (s.setPipe q).wakeupWrite.setPc p .idle
    { s with reads := s.reads ++ [addr] }
  | (.fails, q) => (s.setPipe q).setPc p .idle
  | (.sleeps, q) => (s.setPipe q).setPc p (.reading n true)

def pipeclose (s : PipeSys ι) (writable : Bool) : PipeSys ι :=
  if writable then
    (s.setPipe { s.pipe with writeopen := false }).wakeupRead
  else
    (s.setPipe { s.pipe with readopen := false }).wakeupWrite

/--
A process in `pipewrite` or `piperead` has the file open, so that an end is closed only when no
process is inside of the calls for it, and after that they are not called again.
-/
inductive Step (s : PipeSys ι) : PipeEvent ι → PipeSys ι → Prop where
  | write {p addr} :
      s.pc p = .idle → s.pipe.writeopen = true →
        Step s (.write p addr)
          ({ s with calls := s.calls ++ [addr] }.setPc p (.writing s.calls.length addr false))
  | read {p n} :
      s.pc p = .idle → s.pipe.readopen = true → Step s (.read p n) (s.setPc p (.reading n false))
  | runWrite {p call rest} :
      s.pc p = .writing call rest false →
        Step s (.runWrite p) (s.afterWrite p call rest (s.pipe.pipewrite (s.killed p) rest))
  | runRead {p n} :
      s.pc p = .reading n false →
        Step s (.runRead p) (s.afterRead p n (s.pipe.piperead (s.killed p) n))
  | closeWrite :
      s.pipe.writeopen = true → (∀ p, ¬ (s.pc p).Writing) → Step s (.close true) (s.pipeclose true)
  | closeRead :
      s.pipe.readopen = true → (∀ p, ¬ (s.pc p).Reading) → Step s (.close false) (s.pipeclose false)
  | kill {p} :
      Step s (.kill p)
        { s.setPc p (s.pc p).wake with killed := Function.update s.killed p true }
  | killAwake {p} :
      Step s (.killAwake p) { s with killed := Function.update s.killed p true }
  | replace {p} :
      s.pc p = .idle → Step s (.replace p) { s with killed := Function.update s.killed p false }

structure Start (s : PipeSys ι) : Prop where
  empty : s.pipe.Empty
  readopen : s.pipe.readopen = true
  writeopen : s.pipe.writeopen = true
  pc : ∀ p, s.pc p = .idle
  stored : s.stored = []
  reads : s.reads = []
  calls : s.calls = []
  returned : s.returned = []

abbrev EventRun (ok : PipeSys ι → PipeEvent ι → Prop) (s : PipeSys ι) (es : List (PipeEvent ι))
    (t : PipeSys ι) : Prop :=
  Transition.Run Step ok s es t

end PipeSys
end Xv6
