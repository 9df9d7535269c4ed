import Xv6.Proc.Basic
import Xv6.Vm.Impl.Exec

/-!
The system calls and traps that change address spaces, each run to its end by one process: `fork`,
`exit` and `wait` of `proc.c`, `sys_sbrk`, the page-fault case of `trap`, and the pages that pipes
take. `VmProc` has the fields of `struct proc` that they use.
-/

namespace Xv6

structure VmProc where
  state : ProcState
  parent : Option ProcId
  kstack : Option (BitVec 32)
  pgdir : Option (BitVec 32)
  sz : BitVec 32
  eip : BitVec 32
  esp : BitVec 32
  killed : Bool

structure PipePage where
  page : BitVec 32
  readopen : Bool
  writeopen : Bool

structure VmSys where
  mem : Mem
  proc : ProcId → VmProc
  initproc : Option ProcId
  pipes : List PipePage

namespace VmSys

variable (L : Layout)

def setProc (s : VmSys) (p : ProcId) (x : VmProc) : VmSys :=
  { s with proc := Function.update s.proc p x }

def modifyProc (s : VmSys) (p : ProcId) (f : VmProc → VmProc) : VmSys :=
  s.setProc p (f (s.proc p))

def pgdir (s : VmSys) (p : ProcId) : Except Fault (BitVec 32) :=
  match (s.proc p).pgdir with
  | none => .error .nullDeref
  | some pgdir => .ok pgdir

def allocproc (s : VmSys) : Option ProcId × VmSys :=
  match (List.finRange NPROC).find? (fun p => (s.proc p).state = .unused) with
  | none => (none, s)
  | some p =>
    match s.mem.kalloc with
    | (none, m) =>
      (none, { s.modifyProc p ({ · with kstack := none, state := .unused }) with mem := m })
    | (some kstack, m) =>
      (some p, { s.modifyProc p ({ · with kstack := some kstack, state := .embryo }) with mem := m })

-- with the argument that argint has fetched; the result is the old size
def sysSbrk (s : VmSys) (p : ProcId) (n : BitVec 32) : Except Fault (BitVec 32 × VmSys) := do
  let addr := (s.proc p).sz
  let s := s.modifyProc p ({ · with sz := addr + n })
  if BitVec.slt n 0 then
    let pgdir ← s.pgdir p
    let (_, m) ← s.mem.deallocuvm L pgdir addr (addr + n)
    return (addr, { s with mem := m })
  else
    return (addr, s)

-- memset and mappages with a null `mem`, for the page at virtual address 0 and the frame V2P(0)
def mapNull (s : VmSys) (pgdir va : BitVec 32) : Except Fault VmSys :=
  match (s.mem.walkpgdir pgdir 0 false).1 with
  | none => .error .diverges
  | some pte =>
    if !pteP (s.mem.get pte) then
      .error .diverges
    else do
      let m := s.mem.memset (pteAddr (s.mem.get pte)) 0
      let (ok, m) ← m.mappages pgdir va 4096 (v2p 0) (PTE_W ||| PTE_U)
      if ok then
        return { s with mem := m }
      else
        let m ← m.kfree L (v2p 0)
        return { s with mem := m }

/--
The case T_PGFLT of `trap`. When `kalloc` returns 0, `memset` clears the page at virtual address 0;
without such a page this is a page fault in the kernel, handled by `trap` again. Since %cr2 is read
a second time for `mappages`, it is then the address of the nested fault.
-/
def trapPgflt (p : ProcId) : Nat → VmSys → BitVec 32 → BitVec 32 → Except Fault VmSys
  | 0, _, _, _ => .error .diverges
  | fuel + 1, s, cr2, err => do
    let va := pgrounddown cr2
    let kill := fun s : VmSys => s.modifyProc p ({ · with killed := true })
    if err &&& 7 = 7 then
      return kill s
    else if va ≥ (s.proc p).sz ∧ err &&& 6 ≠ 0 then
      return kill s
    else if va < (s.proc p).sz then
      match s.mem.kalloc with
      | (some mem, m) =>
        let m := m.memset mem 0
        let pgdir ← s.pgdir p
        let (ok, m) ← m.mappages pgdir va 4096 mem (PTE_W ||| PTE_U)
        if ok then
          return { s with mem := m }
        else
          let m ← m.kfree L mem
          return kill { s with mem := m }
      | (none, m) =>
        let s := kill { s with mem := m }
        let pgdir ← s.pgdir p
        let nested := do
          let s ← trapPgflt p fuel s 0 2
          s.mapNull L pgdir 0
        match (s.mem.walkpgdir pgdir 0 false).1 with
        | none => nested
        | some pte => if pteP (s.mem.get pte) then s.mapNull L pgdir va else nested
    else
      return s

def exit (s : VmSys) (p : ProcId) : Except Fault VmSys :=
  if s.initproc = some p then
    .error (.panic "init exiting")
  else do
    let reparent := fun x : VmProc =>
      if x.parent = some p then { x with parent := s.initproc } else x
    let s := { s with proc := fun q => reparent (s.proc q) }
    let pgdir ← s.pgdir p
    let (_, m) ← s.mem.deallocuvm L pgdir KERNBASE 0
    return { s.modifyProc p ({ · with state := .zombie }) with mem := m }

-- a page fault in user mode: a killed process exits at the end of `trap`
def userPgflt (s : VmSys) (p : ProcId) (cr2 err : BitVec 32) : Except Fault VmSys := do
  let s ← trapPgflt L p (s.mem.denied.length + 2) s cr2 err
  if (s.proc p).killed then
    s.exit L p
  else
    return s

def fork (s : VmSys) (curproc : ProcId) : Except Fault (Option ProcId × VmSys) := do
  match s.allocproc with
  | (none, s) => return (none, s)
  | (some np, s) =>
    let pgdir ← s.pgdir curproc
    match ← s.mem.copyuvm L pgdir (s.proc curproc).sz with
    | (none, m) =>
      let m ← match (s.proc np).kstack with
        | none => .error (.panic "kfree")
        | some kstack => m.kfree L kstack
      let s := s.modifyProc np ({ · with pgdir := none, kstack := none, state := .unused })
      return (none, { s with mem := m })
    | (some d, m) =>
      let cur := s.proc curproc
      let s := s.modifyProc np
        ({ · with
            pgdir := some d
            sz := cur.sz
            parent := some curproc
            eip := cur.eip
            esp := cur.esp
            state := .runnable })
      return (some np, { s with mem := m })

def exec (s : VmSys) (p : ProcId) (ip : Option Binary) (argv : List (List (BitVec 8)))
    : Except Fault (Bool × VmSys) := do
  let oldpgdir ← s.pgdir p
  match ← s.mem.execImage L oldpgdir ip argv with
  | (none, m) => return (false, { s with mem := m })
  | (some image, m) =>
    let s := s.modifyProc p
      ({ · with pgdir := some image.pgdir, sz := image.sz, eip := image.eip, esp := image.esp })
    let m ← m.freevm L oldpgdir true
    return (true, { s with mem := m })

def wait (s : VmSys) (curproc : ProcId) : Except Fault (Option ProcId × VmSys) := do
  let isChild := fun p => (s.proc p).parent = some curproc
  match (List.finRange NPROC).find? (fun p => isChild p ∧ (s.proc p).state = .zombie) with
  | none => return (none, s)
  | some p =>
    let m ← match (s.proc p).kstack with
      | none => .error (.panic "kfree")
      | some kstack => s.mem.kfree L kstack
    let m ← match (s.proc p).pgdir with
      | none => .error (.panic "freevm: no pgdir")
      | some pgdir => m.freevm L pgdir false
    let s := s.modifyProc p
      ({ · with kstack := none, parent := none, killed := false, state := .unused })
    return (some p, { s with mem := m })

-- the arguments tell whether the two calls of filealloc find a file
def pipealloc (s : VmSys) (f0 f1 : Bool) : Bool × VmSys :=
  if !f0 || !f1 then
    (false, s)
  else
    match s.mem.kalloc with
    | (none, m) => (false, { s with mem := m })
    | (some page, m) => (true, { s with mem := m, pipes := ⟨page, true, true⟩ :: s.pipes })

def pipeclose (s : VmSys) (i : Nat) (writable : Bool) : Except Fault VmSys :=
  match s.pipes[i]? with
  | none => .error .outOfBounds
  | some pipe =>
    let pipe :=
      if writable then { pipe with writeopen := false } else { pipe with readopen := false }
    if !pipe.readopen && !pipe.writeopen then do
      let m ← s.mem.kfree L pipe.page
      return { s with mem := m, pipes := s.pipes.eraseIdx i }
    else
      .ok { s with pipes := s.pipes.set i pipe }

end VmSys

def lastElem (path : List (BitVec 8)) : List (BitVec 8) :=
  loop path path
where
  loop (last : List (BitVec 8)) : List (BitVec 8) → List (BitVec 8)
    | [] => last
    | c :: s => if c = 0x2f then loop s s else loop last s

-- A string ends with its list, where the terminator is read.
def safestrcpy {k : Nat} (s : Bytes k) (t : List (BitVec 8)) (n : Nat) : Bytes k :=
  loop n 0 s t
where
  loop : Nat → Nat → Bytes k → List (BitVec 8) → Bytes k
    | 0, _, s, _ => s
    | 1, i, s, _ => s.blit i 1 (fun _ => 0)
    | n + 2, i, s, t =>
      let s := s.blit i 1 (fun _ => t.headD 0)
      if t.headD 0 ≠ 0 then
        loop (n + 1) (i + 1) s t.tail
      else
        s.blit (i + 1) 1 (fun _ => 0)

structure NamedSys where
  sys : VmSys
  name : ProcId → Bytes 16

-- `ip` is the file that namei finds for `path`; the name is saved when nothing can fail any more
def NamedSys.exec (L : Layout) (s : NamedSys) (p : ProcId) (path : List (BitVec 8)) (ip : Option Binary)
    (argv : List (List (BitVec 8)))
    : Except Fault (Bool × NamedSys) := do
  let (ok, sys) ← s.sys.exec L p ip argv
  if ok then
    let name := safestrcpy (s.name p) (lastElem path) 16
    return (true, { sys := sys, name := Function.update s.name p name })
  else
    return (false, { s with sys := sys })

end Xv6
