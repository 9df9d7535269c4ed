import Xv6.Sysfile.Impl.Fs

/-!
The system calls of `sysfile.c`, the file layer of `file.c`, `exec` of `exec.c` and what `exit` of
`proc.c` closes. An argument that the process could not pass (argstr, argint or argptr has returned
-1) is `none`, and whether memory can be had is given.
-/

open Prog

namespace Xv6
namespace Sysfile

def filealloc : M (Option FileId) := do
  let s ← get
  match (List.finRange NFILE).find? (fun f => (s.file f).ref = 0) with
  | none => return none
  | some f =>
    modify (·.setFile f { s.file f with ref := 1 })
    return some f

def filedup (f : FileId) : M Unit := do
  let s ← get
  if (s.file f).ref < 1 then
    panic "filedup"
  else
    modify (·.setFile f { s.file f with ref := (s.file f).ref + 1 })

def fdalloc (f : FileId) : M (Option Fd) := do
  let s ← get
  match (List.finRange NOFILE).find? (fun fd => s.ofile fd = none) with
  | none => return none
  | some fd =>
    modify (·.setSlot fd (some f))
    return some fd

variable (sb : Superblock) (devs : Devices)

-- pipeclose has no part in the file system
def fileclose (f : FileId) : M Unit := do
  let s ← get
  if (s.file f).ref < 1 then
    panic "fileclose"
  else if (s.file f).ref - 1 > 0 then
    modify (·.setFile f { s.file f with ref := (s.file f).ref - 1 })
  else
    modify (·.setFile f { s.file f with ref := 0, type := .none })
    match (s.file f).type with
    | .none => return
    | .pipe _ => return
    | .inode ip =>
      beginOp
      iput sb ip
      endOp

abbrev writeMax : Nat := (MAXOPBLOCKS - 1 - 1 - 2) / 2 * 512

-- The loop of filewrite: whether all of `src` has been written. Every iteration writes a byte.
def filewriteLoop (f : FileId) (ip : InodeId) : Nat → List Byte → M Bool
  | 0, src => return src = []
  | fuel + 1, src =>
    if src = [] then
      return true
    else do
      let n1 := min src.length writeMax
      beginOp
      ilock ip
      let s ← get
      let r ← writei sb devs ip (src.take n1) (s.file f).off
      when (0 < r) do
        modify fun s => s.setFile f { s.file f with off := ((s.file f).off + r.toNat) % 2 ^ 32 }
      iunlock ip
      endOp
      if r < 0 then
        return false
      else if r ≠ n1 then
        panic "short filewrite"
      else
        filewriteLoop f ip fuel (src.drop n1)

def filewrite (f : FileId) (src : List Byte) : M Int := do
  let s ← get
  if (s.file f).writable = false then
    return -1
  else
    match (s.file f).type with
    | .none => panic "filewrite"
    | .pipe _ => return devs.pipewrite src
    | .inode ip =>
      let ok ← filewriteLoop sb devs f ip src.length src
      return if ok then src.length else -1

def dot : Name := [46]
def dotdot : Name := [46, 46]

def createDots (dp ip : InodeId) : M Unit := do
  modify fun s => s.setNlink dp ((s.inode dp).data.nlink + 1)
  iupdate sb dp
  let s ← get
  let ok ← dirlink sb devs ip dot (s.inode ip).inum
  when (ok = false) (panic "create dots")
  let ok ← dirlink sb devs ip dotdot (s.inode dp).inum
  when (ok = false) (panic "create dots")

-- create, when the name is not in the directory dp
def createNew (dp : InodeId) (name : Name) (type major minor : BitVec 16) : M InodeId := do
  let s ← get
  let ip ← ialloc sb (s.inode dp).dev type
  ilock ip
  modify fun s => s.setData ip { (s.inode ip).data with major, minor, nlink := 1 }
  iupdate sb ip
  when (type = T_DIR) (createDots sb devs dp ip)
  let s ← get
  let ok ← dirlink sb devs dp name (s.inode ip).inum
  when (ok = false) (panic "create: dirlink")
  iunlockput sb dp
  return ip

def create (path : List Byte) (type major minor : BitVec 16) : M (Option InodeId) := do
  match ← namex sb devs path true with
  | none => return none
  | some (dp, name) =>
    ilock dp
    match ← dirlookup sb devs dp name with
    | some (ip, _) =>
      iunlockput sb dp
      ilock ip
      let s ← get
      if type = T_FILE ∧ (s.inode ip).data.type = T_FILE then
        return some ip
      else
        iunlockput sb ip
        return none
    | none =>
      let ip ← createNew sb devs dp name type major minor
      return some ip

def linkBad (ip : InodeId) : M Int := do
  ilock ip
  modify fun s => s.setNlink ip ((s.inode ip).data.nlink - 1)
  iupdate sb ip
  iunlockput sb ip
  endOp
  return -1

def linkEntry (ip dp : InodeId) (name : Name) : M Int := do
  ilock dp
  let s ← get
  if (s.inode dp).dev ≠ (s.inode ip).dev then
    iunlockput sb dp
    linkBad sb ip
  else
    let ok ← dirlink sb devs dp name (s.inode ip).inum
    if ok = false then
      iunlockput sb dp
      linkBad sb ip
    else
      iunlockput sb dp
      iput sb ip
      endOp
      return 0

def link (old new : List Byte) : M Int := do
  beginOp
  match ← namei sb devs old with
  | none =>
    endOp
    return -1
  | some ip =>
    ilock ip
    let s ← get
    if (s.inode ip).data.type = T_DIR then
      iunlockput sb ip
      endOp
      return -1
    else
      modify fun s => s.setNlink ip ((s.inode ip).data.nlink + 1)
      iupdate sb ip
      iunlock ip
      match ← namex sb devs new true with
      | none => linkBad sb ip
      | some (dp, name) => linkEntry sb devs ip dp name

def sysLink (old new : Option (List Byte)) : M Int :=
  match old, new with
  | some old, some new => link sb devs old new
  | _, _ => return -1

def isdiremptyLoop (dp : InodeId) : Nat → Nat → M Bool
  | 0, _ => pure true
  | k + 1, off => do
    let de ← readDirent sb devs dp off "isdirempty: readi"
    if Fs.direntInum de ≠ 0 then
      return false
    else
      isdiremptyLoop dp k (off + 16)

def isdirempty (dp : InodeId) : M Bool := do
  let s ← get
  isdiremptyLoop sb devs dp (entries s dp - 2) 32

def unlinkBad (dp : InodeId) : M Int := do
  iunlockput sb dp
  endOp
  return -1

def unlinkEntry (dp ip : InodeId) (off : Nat) : M Int := do
  let r ← writei sb devs dp (List.replicate 16 0) off
  when (r ≠ 16) (panic "unlink: writei")
  let s ← get
  when ((s.inode ip).data.type = T_DIR) do
    modify fun s => s.setNlink dp ((s.inode dp).data.nlink - 1)
    iupdate sb dp
  iunlockput sb dp
  modify fun s => s.setNlink ip ((s.inode ip).data.nlink - 1)
  iupdate sb ip
  iunlockput sb ip
  endOp
  return 0

-- unlink, when ip is what the entry at off of dp has
def unlinkInode (dp ip : InodeId) (off : Nat) : M Int := do
  ilock ip
  let s ← get
  if (s.inode ip).data.nlink.toInt < 1 then
    panic "unlink: nlink < 1"
  else
    let empty ← (if (s.inode ip).data.type = T_DIR then isdirempty sb devs ip else pure true)
    if empty = false then
      iunlockput sb ip
      unlinkBad sb dp
    else
      unlinkEntry sb devs dp ip off

def unlink (path : List Byte) : M Int := do
  beginOp
  match ← namex sb devs path true with
  | none =>
    endOp
    return -1
  | some (dp, name) =>
    ilock dp
    if Fs.namecmpEq name dot ∨ Fs.namecmpEq name dotdot then
      unlinkBad sb dp
    else
      match ← dirlookup sb devs dp name with
      | none => unlinkBad sb dp
      | some (ip, off) => unlinkInode sb devs dp ip off

def sysUnlink (path : Option (List Byte)) : M Int :=
  match path with
  | some path => unlink sb devs path
  | none => return -1

abbrev O_WRONLY : BitVec 32 := 0x001
abbrev O_RDWR : BitVec 32 := 0x002
abbrev O_CREATE : BitVec 32 := 0x200

def openInode (path : List Byte) (omode : BitVec 32) : M (Option InodeId) := do
  if omode &&& O_CREATE ≠ 0 then
    create sb devs path T_FILE 0 0
  else
    match ← namei sb devs path with
    | none => return none
    | some ip =>
      ilock ip
      let s ← get
      if (s.inode ip).data.type = T_DIR ∧ omode ≠ 0 then
        iunlockput sb ip
        return none
      else
        return some ip

def openBad (ip : InodeId) : M Int := do
  iunlockput sb ip
  endOp
  return -1

def openFile (ip : InodeId) (omode : BitVec 32) : M Int := do
  match ← filealloc with
  | none => openBad sb ip
  | some f =>
    match ← fdalloc f with
    | none =>
      fileclose sb f
      openBad sb ip
    | some fd =>
      iunlock ip
      endOp
      modify fun s => s.setFile f
        { type := .inode ip
          ref := (s.file f).ref
          readable := omode &&& O_WRONLY = 0
          writable := omode &&& O_WRONLY ≠ 0 ∨ omode &&& O_RDWR ≠ 0
          off := 0 }
      return fd.val

def sysOpen (path : Option (List Byte)) (omode : Option (BitVec 32)) : M Int :=
  match path, omode with
  | some path, some omode => do
    beginOp
    match ← openInode sb devs path omode with
    | none =>
      endOp
      return -1
    | some ip => openFile sb ip omode
  | _, _ => return -1

def make (x : M (Option InodeId)) : M Int := do
  beginOp
  match ← x with
  | none =>
    endOp
    return -1
  | some ip =>
    iunlockput sb ip
    endOp
    return 0

def sysMkdir (path : Option (List Byte)) : M Int :=
  make sb <|
    match path with
    | some path => create sb devs path T_DIR 0 0
    | none => return none

def sysMknod (path : Option (List Byte)) (major minor : Option (BitVec 32)) : M Int :=
  make sb <|
    match path, major, minor with
    | some path, some major, some minor =>
      create sb devs path T_DEV (major.setWidth 16) (minor.setWidth 16)
    | _, _, _ => return none

def chdirInode (path : Option (List Byte)) : M (Option InodeId) :=
  match path with
  | some path => namei sb devs path
  | none => return none

def sysChdir (path : Option (List Byte)) : M Int := do
  beginOp
  match ← chdirInode sb devs path with
  | none =>
    endOp
    return -1
  | some ip =>
    ilock ip
    let s ← get
    if (s.inode ip).data.type ≠ T_DIR then
      iunlockput sb ip
      endOp
      return -1
    else
      iunlock ip
      match s.cwd with
      | none => throw .nullDeref
      | some cwd =>
        iput sb cwd
        endOp
        modify fun s => { s with cwd := some ip }
        return 0

def argfd (s : Sys) (fd : Option (BitVec 32)) : Option (Fd × FileId) :=
  match fd with
  | none => none
  | some fd =>
    if h : fd.toNat < NOFILE then
      (s.ofile ⟨fd.toNat, h⟩).map (⟨fd.toNat, h⟩, ·)
    else
      none

def sysDup (fd : Option (BitVec 32)) : M Int := do
  let s ← get
  match argfd s fd with
  | none => return -1
  | some (_, f) =>
    match ← fdalloc f with
    | none => return -1
    | some fd =>
      filedup f
      return fd.val

def dup2File (f : FileId) (gd : Fd) : M Int := do
  let s ← get
  match s.ofile gd with
  | none =>
    modify (·.setSlot gd (some f))
    filedup f
    return gd.val
  | some g =>
    if f = g then
      return gd.val
    else
      modify (·.setSlot gd none)
      fileclose sb g
      modify (·.setSlot gd (some f))
      filedup f
      return gd.val

def sysDup2 (fd gd : Option (BitVec 32)) : M Int := do
  let s ← get
  match argfd s fd, gd with
  | some (_, f), some gd =>
    if h : gd.toNat < NOFILE then
      dup2File sb f ⟨gd.toNat, h⟩
    else
      return -1
  | _, _ => return -1

def pipealloc (page : Option PageAddr) : M (Option (FileId × FileId)) := do
  match ← filealloc with
  | none => return none
  | some f0 =>
    match ← filealloc with
    | none =>
      fileclose sb f0
      return none
    | some f1 =>
      match page with
      | none =>
        fileclose sb f0
        fileclose sb f1
        return none
      | some page =>
        modify fun s => s.setFile f0
          { s.file f0 with type := .pipe page, readable := true, writable := false }
        modify fun s => s.setFile f1
          { s.file f1 with type := .pipe page, readable := false, writable := true }
        return some (f0, f1)

def pipeBad (rf wf : FileId) : M Int := do
  fileclose sb rf
  fileclose sb wf
  return -1

-- `ok` is whether argptr has found the place for the descriptors
def sysPipe (ok : Bool) (page : Option PageAddr) : M Int := do
  if ok = false then
    return -1
  else
    match ← pipealloc sb page with
    | none => return -1
    | some (rf, wf) =>
      match ← fdalloc rf with
      | none => pipeBad sb rf wf
      | some fd0 =>
        match ← fdalloc wf with
        | none =>
          modify (·.setSlot fd0 none)
          pipeBad sb rf wf
        | some _ => return 0

structure ExecEnv where
  setupkvm : Bool
  allocuvm : Nat → Bool
  stack : Bool
  args : Bool

def word (bs : List Byte) (off : Nat) : BitVec 32 :=
  bs.getD (off + 3) 0 ++ bs.getD (off + 2) 0 ++ bs.getD (off + 1) 0 ++ bs.getD off 0

abbrev PGSIZE : Nat := 4096
abbrev ELF_MAGIC : BitVec 32 := 0x464C457F

def readAll (ip : InodeId) (off n : Nat) : M (Option (List Byte)) := do
  match ← readi sb devs ip off n with
  | none => return none
  | some bs => return if bs.length = n then some bs else none

def loaduvmLoop (ip : InodeId) : Nat → BitVec 32 → Nat → M Bool
  | 0, _, _ => pure true
  | fuel + 1, off, sz =>
    if 0 < sz then do
      match ← readAll sb devs ip off.toNat (min sz PGSIZE) with
      | none => return false
      | some _ => loaduvmLoop ip fuel (off + BitVec.ofNat 32 PGSIZE) (sz - PGSIZE)
    else
      pure true

def loaduvm (ip : InodeId) (off filesz : BitVec 32) : M Bool :=
  loaduvmLoop sb devs ip (filesz.toNat / PGSIZE + 1) off filesz.toNat

-- the loop of exec over the program headers, of which `k` are left
def execLoad (env : ExecEnv) (ip : InodeId) : Nat → Nat → BitVec 32 → M Bool
  | 0, _, _ => pure true
  | k + 1, i, off => do
    match ← readAll sb devs ip off.toNat 32 with
    | none => return false
    | some ph =>
      let phoff := word ph 4
      let vaddr := word ph 8
      let filesz := word ph 16
      let memsz := word ph 20
      if word ph 0 ≠ 1 ∨ memsz = 0 then
        execLoad env ip k (i + 1) (off + 32)
      else if memsz < filesz ∨ vaddr + memsz < vaddr ∨ env.allocuvm i = false ∨
          vaddr.toNat % PGSIZE ≠ 0 then
        return false
      else
        let ok ← loaduvm sb devs ip phoff filesz
        if ok = false then
          return false
        else
          execLoad env ip k (i + 1) (off + 32)

def execInode (env : ExecEnv) (ip : InodeId) : M Bool := do
  match ← readAll sb devs ip 0 52 with
  | none => return false
  | some elf =>
    if word elf 0 ≠ ELF_MAGIC ∨ env.setupkvm = false then
      return false
    else
      execLoad sb devs env ip ((word elf 44).toNat % 2 ^ 16) 0 (word elf 28)

def exec (path : List Byte) (env : ExecEnv) : M Int := do
  beginOp
  match ← namei sb devs path with
  | none =>
    endOp
    return -1
  | some ip =>
    ilock ip
    let ok ← execInode sb devs env ip
    if ok = false then
      iunlockput sb ip
      endOp
      return -1
    else
      iunlockput sb ip
      endOp
      return if env.stack = true ∧ env.args = true then 0 else -1

def exitFiles : List Fd → M Unit
  | [] => pure ()
  | fd :: l => do
    let s ← get
    match s.ofile fd with
    | none => exitFiles l
    | some f =>
      fileclose sb f
      modify (·.setSlot fd none)
      exitFiles l

-- exit up to the process table
def exit : M Int := do
  exitFiles sb (List.finRange NOFILE)
  beginOp
  let s ← get
  match s.cwd with
  | none => throw .nullDeref
  | some cwd =>
    iput sb cwd
    endOp
    modify fun s => { s with cwd := none }
    return 0

inductive Syscall where
  | open (path : Option (List Byte)) (omode : Option (BitVec 32))
  | link (old new : Option (List Byte))
  | unlink (path : Option (List Byte))
  | mkdir (path : Option (List Byte))
  | mknod (path : Option (List Byte)) (major minor : Option (BitVec 32))
  | chdir (path : Option (List Byte))
  | exec (path : List Byte) (env : ExecEnv)
  | fileclose (f : FileId)
  | filewrite (f : FileId) (src : List Byte)
  | exit
  | dup (fd : Option (BitVec 32))
  | dup2 (fd gd : Option (BitVec 32))
  | pipe (ok : Bool) (page : Option PageAddr)

def run : Syscall → M Int
  | .open path omode => sysOpen sb devs path omode
  | .link old new => sysLink sb devs old new
  | .unlink path => sysUnlink sb devs path
  | .mkdir path => sysMkdir sb devs path
  | .mknod path major minor => sysMknod sb devs path major minor
  | .chdir path => sysChdir sb devs path
  | .exec path env => exec sb devs path env
  | .fileclose f => do
    fileclose sb f
    return 0
  | .filewrite f src => filewrite sb devs f src
  | .exit => exit sb
  | .dup fd => sysDup fd
  | .dup2 fd gd => sysDup2 sb fd gd
  | .pipe ok page => sysPipe sb ok page

end Sysfile
end Xv6
