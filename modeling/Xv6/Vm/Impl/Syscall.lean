import Xv6.Vm.Impl.Sys

/-!
The arguments of a system call as `syscall.c` fetches them. `load` and `byte` are the contents of
user memory, and `sz` is `curproc->sz`.
-/

namespace Xv6

def fetchint (sz : BitVec 32) (load : BitVec 32 → BitVec 32) (addr : BitVec 32)
    : Option (BitVec 32) :=
  if addr ≥ sz ∨ addr + 4 > sz then
    none
  else
    some (load addr)

def fetchstr (sz : BitVec 32) (byte : BitVec 32 → BitVec 8) (addr : BitVec 32) : Option Nat :=
  if addr ≥ sz then
    none
  else
    (List.range (sz.toNat - addr.toNat)).find? (fun i => byte (addr + BitVec.ofNat 32 i) = 0)

def argint (sz esp : BitVec 32) (load : BitVec 32 → BitVec 32) (n : BitVec 32)
    : Option (BitVec 32) :=
  fetchint sz load (esp + 4 + 4 * n)

def argptr (sz esp : BitVec 32) (load : BitVec 32 → BitVec 32) (n size : BitVec 32)
    : Option (BitVec 32) := do
  let i ← argint sz esp load n
  if BitVec.slt size 0 ∨ i ≥ sz ∨ i + size > sz then
    none
  else
    some i

namespace VmSys

variable (L : Layout)

inductive Event where
  | sbrk (p : ProcId) (n : BitVec 32)
  | fork (p : ProcId)
  | exec (p : ProcId) (ip : Option Binary) (argv : List (List (BitVec 8)))
  | pgflt (p : ProcId) (cr2 err : BitVec 32)

def Active (s : VmSys) (p : ProcId) : Prop :=
  (s.proc p).state ≠ .unused ∧ (s.proc p).state ≠ .zombie

inductive Step : VmSys → Event → VmSys → Prop where
  | sbrk {s t : VmSys} {p : ProcId} {n r : BitVec 32} :
      s.Active p → s.sysSbrk L p n = .ok (r, t) → Step s (.sbrk p n) t
  | fork {s t : VmSys} {p : ProcId} {r : Option ProcId} :
      s.Active p → s.fork L p = .ok (r, t) → Step s (.fork p) t
  | exec {s t : VmSys} {p : ProcId} {ip : Option Binary} {argv : List (List (BitVec 8))} {r : Bool} :
      s.Active p → s.exec L p ip argv = .ok (r, t) → Step s (.exec p ip argv) t
  | pgflt {s t : VmSys} {p : ProcId} {cr2 err : BitVec 32} :
      s.Active p → s.userPgflt L p cr2 err = .ok t → Step s (.pgflt p cr2 err) t

inductive PageEvent where
  | call (e : Event)
  | exit (p : ProcId)
  | wait (p : ProcId)
  | pipealloc (f0 f1 : Bool)
  | pipeclose (i : Nat) (writable : Bool)

inductive PageStep : VmSys → PageEvent → VmSys → Prop where
  | call {s t : VmSys} {e : Event} : Step L s e t → PageStep s (.call e) t
  | exit {s t : VmSys} {p : ProcId} : s.Active p → s.exit L p = .ok t → PageStep s (.exit p) t
  | wait {s t : VmSys} {p : ProcId} {r : Option ProcId} :
      s.Active p → s.wait L p = .ok (r, t) → PageStep s (.wait p) t
  | pipealloc {s t : VmSys} {f0 f1 r : Bool} :
      s.pipealloc f0 f1 = (r, t) → PageStep s (.pipealloc f0 f1) t
  | pipeclose {s t : VmSys} {i : Nat} {writable : Bool} :
      s.pipeclose L i writable = .ok t → PageStep s (.pipeclose i writable) t

end VmSys

end Xv6
