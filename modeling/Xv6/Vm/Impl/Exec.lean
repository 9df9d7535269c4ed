import Xv6.Vm.Impl.Pgdir

/-!
`exec.c`: a new address space is built from the bytes of an ELF file and the argument strings.
-/

namespace Xv6

abbrev MAXARG : Nat := 32

abbrev ELF_MAGIC : BitVec 32 := 0x464C457F

structure Binary where
  size : Nat
  byte : Nat → BitVec 8

namespace Binary

def readi (ip : Binary) (off n : BitVec 32) : Option Nat :=
  if off.toNat > ip.size ∨ off + n < off then
    none
  else if (off + n).toNat > ip.size then
    some (ip.size - off.toNat)
  else
    some n.toNat

-- readi(ip, (char*)&x, off, sizeof(x)) for a structure of k bytes
def read (ip : Binary) (k : Nat) (off : BitVec 32) : Option (Bytes k) :=
  if ip.readi off (BitVec.ofNat 32 k) = some k then
    some (fun i => ip.byte (off.toNat + i))
  else
    none

end Binary

structure Elfhdr where
  magic : BitVec 32
  entry : BitVec 32
  phoff : BitVec 32
  phnum : Nat

def Elfhdr.ofBytes (b : Bytes 52) : Elfhdr where
  magic := b.getWord 0
  entry := b.getWord 24
  phoff := b.getWord 28
  phnum := b.getLE 44 2

structure Proghdr where
  type : BitVec 32
  off : BitVec 32
  vaddr : BitVec 32
  filesz : BitVec 32
  memsz : BitVec 32

def Proghdr.ofBytes (b : Bytes 32) : Proghdr where
  type := b.getWord 0
  off := b.getWord 4
  vaddr := b.getWord 8
  filesz := b.getWord 16
  memsz := b.getWord 20

namespace Mem

def loaduvm (m : Mem) (pgdir addr : BitVec 32) (ip : Binary) (offset sz : BitVec 32)
    : Except Fault (Bool × Mem) :=
  if addr.toNat % PGSIZE ≠ 0 then
    .error (.panic "loaduvm: addr must be page aligned")
  else
    loop pgdir addr ip offset sz NPAGES m 0
where
  loop (pgdir addr : BitVec 32) (ip : Binary) (offset sz : BitVec 32)
      : Nat → Mem → BitVec 32 → Except Fault (Bool × Mem)
    | 0, _, _ => .error .diverges
    | fuel + 1, m, i =>
      if i < sz then
        match (m.walkpgdir pgdir (addr + i) false).1 with
        | none => .error (.panic "loaduvm: address should exist")
        | some pte =>
          let pa := pteAddr (m.get pte)
          let n := if sz - i < 4096 then sz - i else 4096
          match ip.readi (offset + i) n with
          | none => .ok (false, m)
          | some k =>
            let page := (m.phys pa).blit 0 k (fun j => ip.byte ((offset + i).toNat + j))
            let m := { m with phys := Function.update m.phys pa page }
            if k ≠ n.toNat then
              .ok (false, m)
            else
              loop pgdir addr ip offset sz fuel m (i + 4096)
      else
        .ok (true, m)

end Mem

structure Image where
  pgdir : BitVec 32
  sz : BitVec 32
  eip : BitVec 32
  esp : BitVec 32

def wordBytes (w : BitVec 32) : List (BitVec 8) :=
  (List.range 4).map fun i => BitVec.ofNat 8 (w.toNat / 256 ^ i)

namespace Mem

variable (L : Layout)

-- A result of nothing is a jump to `bad`.
def execLoad (pgdir : BitVec 32) (ip : Binary)
    : Nat → Mem → BitVec 32 → BitVec 32 → Except Fault (Option (BitVec 32) × Mem)
  | 0, m, _, sz => .ok (some sz, m)
  | k + 1, m, off, sz =>
    match ip.read 32 off with
    | none => .ok (none, m)
    | some b =>
      let ph := Proghdr.ofBytes b
      if ph.type ≠ 1 ∨ ph.memsz = 0 then
        execLoad pgdir ip k m (off + 32) sz
      else if ph.memsz < ph.filesz then
        .ok (none, m)
      else if ph.vaddr + ph.memsz < ph.vaddr then
        .ok (none, m)
      else do
        let (sz, m) ← m.allocuvm L pgdir sz (ph.vaddr + ph.memsz)
        if sz = 0 then
          return (none, m)
        else if ph.vaddr.toNat % PGSIZE ≠ 0 then
          return (none, m)
        else
          let (ok, m) ← m.loaduvm pgdir ph.vaddr ip ph.off ph.filesz
          if ok then
            execLoad pgdir ip k m (off + 32) sz
          else
            return (none, m)

def execArgs (cr3 pgdir : BitVec 32)
    : List (List (BitVec 8)) → Nat → Mem → BitVec 32 → List (BitVec 32)
      → Except Fault (Option (Nat × BitVec 32 × List (BitVec 32)) × Mem)
  | [], argc, m, sp, ustack => .ok (some (argc, sp, ustack), m)
  | s :: argv, argc, m, sp, ustack =>
    if argc ≥ MAXARG then
      .ok (none, m)
    else do
      let sp := (sp - BitVec.ofNat 32 (s.length + 1)) &&& ~~~ 3
      let (ok, m) ← m.copyout cr3 pgdir sp (s ++ [0])
      if ok then
        execArgs cr3 pgdir argv (argc + 1) m sp (ustack ++ [sp])
      else
        return (none, m)

def execStack (m : Mem) (cr3 pgdir sz : BitVec 32) (argv : List (List (BitVec 8)))
    : Except Fault (Option (BitVec 32) × Mem) := do
  match ← execArgs cr3 pgdir argv 0 m sz [] with
  | (none, m) => return (none, m)
  | (some (argc, sp, ustack), m) =>
    let ustack := [0xffffffff, BitVec.ofNat 32 argc, sp - BitVec.ofNat 32 ((argc + 1) * 4)] ++
      ustack ++ [0]
    let sp := sp - BitVec.ofNat 32 ((3 + argc + 1) * 4)
    let (ok, m) ← m.copyout cr3 pgdir sp (ustack.flatMap wordBytes)
    return (if ok then some sp else none, m)

def execBuild (m : Mem) (cr3 pgdir : BitVec 32) (ip : Binary) (elf : Elfhdr)
    (argv : List (List (BitVec 8)))
    : Except Fault (Option Image × Mem) := do
  match ← execLoad L pgdir ip elf.phnum m elf.phoff 0 with
  | (none, m) => return (none, m)
  | (some sz, m) =>
    let sz := pgroundup sz
    let (sz, m) ← m.allocuvm L pgdir sz (sz + 2 * 4096)
    if sz = 0 then
      return (none, m)
    else
      let m ← m.clearpteu pgdir (sz - 2 * 4096)
      match ← m.execStack cr3 pgdir sz argv with
      | (none, m) => return (none, m)
      | (some sp, m) => return (some ⟨pgdir, sz, elf.entry, sp⟩, m)

-- exec up to the point where it commits to the user image, in the address space `cr3`; `ip` is
-- nothing if namei fails
def execImage (m : Mem) (cr3 : BitVec 32) (ip : Option Binary) (argv : List (List (BitVec 8)))
    : Except Fault (Option Image × Mem) :=
  match ip with
  | none => .ok (none, m)
  | some ip =>
    match ip.read 52 0 with
    | none => .ok (none, m)
    | some b =>
      let elf := Elfhdr.ofBytes b
      if elf.magic ≠ ELF_MAGIC then
        .ok (none, m)
      else do
        match ← m.setupkvm L with
        | (none, m) => return (none, m)
        | (some pgdir, m) =>
          match ← m.execBuild L cr3 pgdir ip elf argv with
          | (some image, m) => return (some image, m)
          | (none, m) =>
            let m ← m.freevm L pgdir true
            return (none, m)

end Mem

end Xv6
