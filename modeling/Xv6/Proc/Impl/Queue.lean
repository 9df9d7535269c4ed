import Xv6.Proc.Basic

/-!
The queue operations of `proc.c`. All of them run with `ptable.lock` held, except that `setNewPrio`
computes the address of the old queue before it takes the lock.
-/

namespace Xv6
namespace Kernel

variable {ncpu : Nat}

def priotableIdx (prio : BitVec 32) : Except Fault (Fin NPRIO) :=
  if h : prio.toNat < NPRIO then
    .ok ⟨prio.toNat, h⟩
  else
    .error .outOfBounds

def insertProcAt (s : Kernel ncpu) (p : ProcId) (q : Fin NPRIO) : Kernel ncpu :=
  match (s.priotable q).ultimo with
  | none =>
    let s := s.setPriotable q ⟨some p, some p⟩
    s.modifyProc p ({ · with sigprio := none })
  | some tmp =>
    let s := s.modifyProc tmp ({ · with sigprio := some p })
    let s := s.setPriotable q { s.priotable q with ultimo := some p }
    s.modifyProc p ({ · with sigprio := none })

def insertProc (s : Kernel ncpu) (p : ProcId) (prio : BitVec 32) : Except Fault (Kernel ncpu) := do
  let q ← priotableIdx prio
  return s.insertProcAt p q

def quitarProcAt (s : Kernel ncpu) (p : ProcId) (q : Fin NPRIO) : Int × Kernel ncpu :=
  let prt := s.priotable q
  if prt.primero ≠ some p then
    (0, s)
  else
    let tmp2 := (s.proc p).sigprio
    let ultimo := if prt.ultimo = some p then none else prt.ultimo
    let s := s.setPriotable q ⟨tmp2, ultimo⟩
    (1, s.modifyProc p ({ · with sigprio := none }))

def quitarProc (s : Kernel ncpu) (p : ProcId) (prio : BitVec 32)
    : Except Fault (Int × Kernel ncpu) := do
  let q ← priotableIdx prio
  return s.quitarProcAt p q

def setNewPrio.search (s : Kernel ncpu) (p : ProcId)
    : Nat → Option ProcId → Option ProcId → Except Fault (Option ProcId)
  | 0, _, _ => .error .diverges
  | fuel + 1, anterior, actual =>
    if actual = some p then
      .ok anterior
    else
      match actual with
      | none => .error .nullDeref
      | some a => search s p fuel (some a) (s.proc a).sigprio

-- The code of setNewPrio behind the loop, where actual is p.
def setNewPrio.relink (s : Kernel ncpu) (p : ProcId) (prio : BitVec 32) (prt : Fin NPRIO)
    (anterior : ProcId) : Except Fault (Kernel ncpu) :=
  let s := s.modifyProc anterior ({ · with sigprio := (s.proc p).sigprio })
  let s :=
    if (s.proc anterior).sigprio = none then
      s.setPriotable prt { s.priotable prt with ultimo := (s.proc anterior).sigprio }
    else
      s
  let s := s.modifyProc p ({ · with sigprio := none })
  let s := s.modifyProc p ({ · with prio := prio })
  s.insertProc p (s.proc p).prio

/--
The part of `setNewPrio` under `ptable.lock`, with `prt` the queue whose address was computed before.
-/
def setNewPrio (s : Kernel ncpu) (p : ProcId) (prio : BitVec 32) (prt : Fin NPRIO)
    : Except Fault (Kernel ncpu) := do
  if (s.priotable prt).primero = some p then
    let (_, s) ← s.quitarProc p (s.proc p).prio
    let s ← s.insertProc p prio
    return s.modifyProc p ({ · with prio := prio })
  else
    match (s.priotable prt).primero with
    | none => throw .nullDeref
    | some primero =>
      match ← setNewPrio.search s p (NPROC + 1) (s.proc primero).sigprio (some primero) with
      | none => throw .nullDeref
      | some anterior => setNewPrio.relink s p prio prt anterior

def findPid (s : Kernel ncpu) (pid : BitVec 32) : Option ProcId :=
  (List.finRange NPROC).find? (fun p => (s.proc p).pid = pid)

end Kernel
end Xv6
