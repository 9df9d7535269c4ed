import Xv6.Vm.Impl.Syscall

/-!
`sys_wait`, with the status that `wait` stores in the memory of its caller. The kernel uses an address
of the caller as it is: when the page is not there, the page fault may bring it in, and the
instruction is started again.
-/

namespace Xv6

namespace Mem

def frame (m : Mem) (cr3 va : BitVec 32) : Option (BitVec 32) :=
  match (m.walkpgdir cr3 va false).1 with
  | none => none
  | some pte => if pteP (m.get pte) then some (pteAddr (m.get pte)) else none

def peek (m : Mem) (cr3 va : BitVec 32) : BitVec 8 :=
  match m.frame cr3 va with
  | none => 0
  | some pa => (m.phys pa).byte (va.toNat % PGSIZE)

def poke (m : Mem) (cr3 va : BitVec 32) (c : BitVec 8) : Mem :=
  match m.frame cr3 va with
  | none => m
  | some pa =>
    let page := (m.phys pa).blit (va.toNat % PGSIZE) 1 (fun _ => c)
    { m with phys := Function.update m.phys pa page }

def peekWord (m : Mem) (cr3 va : BitVec 32) : BitVec 32 :=
  BitVec.ofNat 32 ((m.peek cr3 va).toNat + 0x100 * (m.peek cr3 (va + 1)).toNat +
    0x10000 * (m.peek cr3 (va + 2)).toNat + 0x1000000 * (m.peek cr3 (va + 3)).toNat)

def pokeBytes (cr3 : BitVec 32) : Mem → BitVec 32 → List (BitVec 8) → Mem
  | m, _, [] => m
  | m, va, c :: cs => pokeBytes cr3 (m.poke cr3 va c) (va + 1) cs

end Mem

namespace VmSys

variable (L : Layout)

-- A fault that does not bring the page in uses up a denial, or the next one is the same.
def touch (p : ProcId) (va err : BitVec 32) : Nat → VmSys → Except Fault VmSys
  | 0, _ => .error .diverges
  | fuel + 1, s => do
    let pgdir ← s.pgdir p
    match s.mem.frame pgdir va with
    | some _ => return s
    | none =>
      let s ← trapPgflt L p (s.mem.denied.length + 2) s va err
      touch p va err fuel s

def touchWord (s : VmSys) (p : ProcId) (va err : BitVec 32) : Except Fault VmSys := do
  let s ← touch L p va err (s.mem.denied.length + 2) s
  touch L p (va + 3) err (s.mem.denied.length + 2) s

-- a read and a write in kernel mode have the error codes 0 and 2 when the page is not there
def loadInt (s : VmSys) (p : ProcId) (va : BitVec 32) : Except Fault (BitVec 32 × VmSys) := do
  let s ← s.touchWord L p va 0
  let pgdir ← s.pgdir p
  return (s.mem.peekWord pgdir va, s)

def storeInt (s : VmSys) (p : ProcId) (va w : BitVec 32) : Except Fault VmSys := do
  let s ← s.touchWord L p va 2
  let pgdir ← s.pgdir p
  return { s with mem := s.mem.pokeBytes pgdir va (wordBytes w) }

-- argptr with its argument in the memory of the caller
def argptrLoad (s : VmSys) (p : ProcId) (n size : BitVec 32)
    : Except Fault (Option (BitVec 32) × VmSys) := do
  let curproc := s.proc p
  let addr := curproc.esp + 4 + 4 * n
  if addr ≥ curproc.sz ∨ addr + 4 > curproc.sz then
    return (none, s)
  else
    let (i, s) ← s.loadInt L p addr
    return (argptr curproc.sz curproc.esp (fun _ => i) n size, s)

end VmSys

structure StatusSys where
  sys : VmSys
  pid : ProcId → BitVec 32
  status : ProcId → BitVec 32

namespace StatusSys

variable (L : Layout)

-- what wait does with the zombie `p`
def reap (s : StatusSys) (curproc : ProcId) (status : BitVec 32) (p : ProcId)
    : Except Fault (BitVec 32 × StatusSys) := do
  let pid := s.pid p
  let m ← match (s.sys.proc p).kstack with
    | none => .error (.panic "kfree")
    | some kstack => s.sys.mem.kfree L kstack
  let sys ← { s.sys with mem := m }.storeInt L curproc status (s.status p)
  let m ← match (sys.proc p).pgdir with
    | none => .error (.panic "freevm: no pgdir")
    | some pgdir => sys.mem.freevm L pgdir false
  let sys := sys.modifyProc p
    ({ · with kstack := none, parent := none, killed := false, state := .unused })
  return (pid, { s with sys := { sys with mem := m }, pid := Function.update s.pid p 0 })

def scan (s : StatusSys) (curproc : ProcId) (status : BitVec 32)
    : Except Fault (Option (BitVec 32) × StatusSys) :=
  let isChild := fun p => (s.sys.proc p).parent = some curproc
  match (List.finRange NPROC).find? (fun p => isChild p ∧ (s.sys.proc p).state = .zombie) with
  | some p => do
    let (pid, s) ← s.reap L curproc status p
    return (some pid, s)
  | none =>
    let havekids := (List.finRange NPROC).any isChild
    if !havekids || (s.sys.proc curproc).killed then
      .ok (some (-1), s)
    else
      .ok (none, s)

def sleep (s : StatusSys) (curproc : ProcId) : StatusSys :=
  { s with sys := s.sys.modifyProc curproc ({ · with state := .sleeping }) }

-- `others` has what the other processes do during each sleep; after the last one wait sleeps on
def wait (curproc : ProcId) (status : BitVec 32)
    : List (StatusSys → StatusSys) → StatusSys → Except Fault (BitVec 32 × StatusSys)
  | others, s => do
    match ← s.scan L curproc status with
    | (some r, s) => return (r, s)
    | (none, s) =>
      match others with
      | [] => .error .diverges
      | other :: others => wait curproc status others (other (s.sleep curproc))

def sysWait (s : StatusSys) (p : ProcId) (others : List (StatusSys → StatusSys))
    : Except Fault (BitVec 32 × StatusSys) := do
  let (i, sys) ← s.sys.argptrLoad L p 0 4
  let s := { s with sys := sys }
  match i with
  | none => return (-1, s)
  | some status => wait L p status others s

end StatusSys

end Xv6
