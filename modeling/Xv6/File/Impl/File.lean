import Mathlib.Data.Int.Notation
import Mathlib.Logic.Function.Basic
import Xv6.Basic

/-!
The open-file table of `file.c`, the references of the inode cache of `fs.c` and the system calls of
`sysfile.c`, `exec.c` and `proc.c` that move references between them. What the calls read from the
file system (the results of `dirlookup`, the type of an inode) and whether memory can be had is given
by their arguments.
-/

namespace Xv6

abbrev NOFILE : Nat := 16
abbrev NFILE : Nat := 100
abbrev NINODE : Nat := 50
abbrev ROOTINO : Nat := 1

instance : NeZero NOFILE := ⟨by decide⟩
instance : NeZero NFILE := ⟨by decide⟩
instance : NeZero NINODE := ⟨by decide⟩

abbrev FileId := Fin NFILE
abbrev InodeId := Fin NINODE
abbrev Fd := Fin NOFILE
abbrev PageAddr := Nat

inductive FileType where
  | none
  | pipe (page : PageAddr)
  | inode (ip : InodeId)
  deriving DecidableEq, Repr

structure File where
  type : FileType
  ref : Int
  readable : Bool
  writable : Bool
  deriving DecidableEq, Repr

structure InodeRef where
  ref : Int
  inum : Nat
  deriving DecidableEq, Repr

structure PipeEnds where
  readopen : Bool
  writeopen : Bool
  deriving DecidableEq, Repr

inductive SlotState where
  | unused
  | live
  | zombie
  deriving DecidableEq, Repr

structure FileProc where
  state : SlotState
  ofile : Fd → Option FileId
  cwd : Option InodeId

structure FileSys where
  file : FileId → File
  inode : InodeId → InodeRef
  -- the pages that hold a struct pipe
  pipe : PageAddr → Option PipeEnds
  proc : Fin NPROC → FileProc

namespace FileSys

def setFile (s : FileSys) (f : FileId) (x : File) : FileSys :=
  { s with file := Function.update s.file f x }

def setInode (s : FileSys) (ip : InodeId) (x : InodeRef) : FileSys :=
  { s with inode := Function.update s.inode ip x }

def setPipe (s : FileSys) (page : PageAddr) (x : Option PipeEnds) : FileSys :=
  { s with pipe := Function.update s.pipe page x }

def setProc (s : FileSys) (p : Fin NPROC) (x : FileProc) : FileSys :=
  { s with proc := Function.update s.proc p x }

def setSlot (s : FileSys) (p : Fin NPROC) (fd : Fd) (x : Option FileId) : FileSys :=
  s.setProc p { s.proc p with ofile := Function.update (s.proc p).ofile fd x }

def setCwd (s : FileSys) (p : Fin NPROC) (x : Option InodeId) : FileSys :=
  s.setProc p { s.proc p with cwd := x }

def filealloc (s : FileSys) : Option FileId × FileSys :=
  match (List.finRange NFILE).find? (fun f => (s.file f).ref = 0) with
  | none => (none, s)
  | some f => (some f, s.setFile f { s.file f with ref := 1 })

def filedup (s : FileSys) (f : FileId) : Except Fault FileSys :=
  if (s.file f).ref < 1 then
    .error (.panic "filedup")
  else
    .ok (s.setFile f { s.file f with ref := (s.file f).ref + 1 })

-- A page that holds no pipe any more is memory of somebody else.
def pipeclose (s : FileSys) (page : PageAddr) (writable : Bool) : Except Fault FileSys :=
  match s.pipe page with
  | none => .error .outOfBounds
  | some e =>
    let e := if writable then { e with writeopen := false } else { e with readopen := false }
    if e.readopen = false ∧ e.writeopen = false then
      .ok (s.setPipe page none)
    else
      .ok (s.setPipe page (some e))

def iput (s : FileSys) (ip : InodeId) : FileSys :=
  s.setInode ip { s.inode ip with ref := (s.inode ip).ref - 1 }

def fileclose (s : FileSys) (f : FileId) : Except Fault FileSys :=
  if (s.file f).ref < 1 then
    .error (.panic "fileclose")
  else if (s.file f).ref - 1 > 0 then
    .ok (s.setFile f { s.file f with ref := (s.file f).ref - 1 })
  else
    let ff := s.file f
    let s := s.setFile f { s.file f with ref := 0, type := .none }
    match ff.type with
    | .none => .ok s
    | .pipe page => s.pipeclose page ff.writable
    | .inode ip => .ok (s.iput ip)

def iget (s : FileSys) (inum : Nat) : Except Fault (InodeId × FileSys) :=
  match (List.finRange NINODE).find? (fun i => (s.inode i).ref > 0 ∧ (s.inode i).inum = inum) with
  | some ip => .ok (ip, s.setInode ip { s.inode ip with ref := (s.inode ip).ref + 1 })
  | none =>
    match (List.finRange NINODE).find? (fun i => (s.inode i).ref = 0) with
    | none => .error (.panic "iget: no inodes")
    | some ip => .ok (ip, s.setInode ip ⟨1, inum⟩)

def idup (s : FileSys) (ip : InodeId) : FileSys :=
  s.setInode ip { s.inode ip with ref := (s.inode ip).ref + 1 }

def ilock (s : FileSys) (ip : InodeId) : Except Fault Unit :=
  if (s.inode ip).ref < 1 then
    .error (.panic "ilock")
  else
    .ok ()

def fdalloc (s : FileSys) (p : Fin NPROC) (f : FileId) : Option Fd × FileSys :=
  match (List.finRange NOFILE).find? (fun fd => (s.proc p).ofile fd = none) with
  | none => (none, s)
  | some fd => (some fd, s.setSlot p fd (some f))

inductive Lookup where
  | notDir
  | missing
  | found (inum : Nat)
  deriving DecidableEq, Repr

structure Path where
  absolute : Bool
  elems : List Lookup
  deriving DecidableEq, Repr

def namexLoop (parent : Bool) : List Lookup → FileSys → InodeId →
    Except Fault (Option InodeId × FileSys)
  | [], s, ip =>
    if parent then
      .ok (none, s.iput ip)
    else
      .ok (some ip, s)
  | e :: rest, s, ip => do
    s.ilock ip
    match e with
    | .notDir => return (none, s.iput ip)
    | .missing =>
      if parent = true ∧ rest = [] then
        return (some ip, s)
      return (none, s.iput ip)
    | .found inum =>
      if parent = true ∧ rest = [] then
        return (some ip, s)
      let (next, s) ← s.iget inum
      namexLoop parent rest (s.iput ip) next

def namex (s : FileSys) (p : Fin NPROC) (path : Path) (parent : Bool)
    : Except Fault (Option InodeId × FileSys) :=
  if path.absolute then do
    let (ip, s) ← s.iget ROOTINO
    namexLoop parent path.elems s ip
  else
    match (s.proc p).cwd with
    | none => .error .nullDeref
    | some ip => namexLoop parent path.elems (s.idup ip) ip

inductive Entry where
  | present (inum : Nat) (isFile : Bool)
  | fresh (inum : Nat)
  deriving DecidableEq, Repr

def create (s : FileSys) (p : Fin NPROC) (path : Path) (entry : Entry)
    : Except Fault (Option InodeId × FileSys) := do
  match ← s.namex p path true with
  | (none, s) => return (none, s)
  | (some dp, s) =>
    s.ilock dp
    match entry with
    | .present inum isFile =>
      let (ip, s) ← s.iget inum
      let s := s.iput dp
      s.ilock ip
      if isFile then
        return (some ip, s)
      return (none, s.iput ip)
    | .fresh inum =>
      let (ip, s) ← s.iget inum
      s.ilock ip
      return (some ip, s.iput dp)

structure OpenArgs where
  path : Path
  -- O_CREATE, with what create finds; otherwise whether the inode is a directory
  entry : Option Entry
  isDir : Bool
  rdonly : Bool
  readable : Bool
  writable : Bool
  deriving DecidableEq, Repr

def openInode (s : FileSys) (p : Fin NPROC) (args : OpenArgs)
    : Except Fault (Option InodeId × FileSys) :=
  match args.entry with
  | some entry => s.create p args.path entry
  | none => do
    match ← s.namex p args.path false with
    | (none, s) => return (none, s)
    | (some ip, s) =>
      s.ilock ip
      if args.isDir = true ∧ args.rdonly = false then
        return (none, s.iput ip)
      return (some ip, s)

def sysOpen (s : FileSys) (p : Fin NPROC) (args : OpenArgs) : Except Fault (Int × FileSys) := do
  match ← s.openInode p args with
  | (none, s) => return (-1, s)
  | (some ip, s) =>
    match s.filealloc with
    | (none, s) => return (-1, s.iput ip)
    | (some f, s) =>
      match s.fdalloc p f with
      | (none, s) =>
        let s ← s.fileclose f
        return (-1, s.iput ip)
      | (some fd, s) =>
        return (fd.val, s.setFile f ⟨.inode ip, (s.file f).ref, args.readable, args.writable⟩)

def argfd (s : FileSys) (p : Fin NPROC) (fd : BitVec 32) : Option (Fd × FileId) :=
  if h : fd.toNat < NOFILE then
    ((s.proc p).ofile ⟨fd.toNat, h⟩).map (⟨fd.toNat, h⟩, ·)
  else
    none

def sysClose (s : FileSys) (p : Fin NPROC) (fd : BitVec 32) : Except Fault (Int × FileSys) :=
  match s.argfd p fd with
  | none => .ok (-1, s)
  | some (fd, f) => do
    let s ← (s.setSlot p fd none).fileclose f
    return (0, s)

def sysDup (s : FileSys) (p : Fin NPROC) (fd : BitVec 32) : Except Fault (Int × FileSys) :=
  match s.argfd p fd with
  | none => .ok (-1, s)
  | some (_, f) =>
    match s.fdalloc p f with
    | (none, s) => .ok (-1, s)
    | (some fd, s) => do
      let s ← s.filedup f
      return (fd.val, s)

def sysDup2 (s : FileSys) (p : Fin NPROC) (fd gd : BitVec 32) : Except Fault (Int × FileSys) :=
  match s.argfd p fd with
  | none => .ok (-1, s)
  | some (_, f) =>
    if h : gd.toNat < NOFILE then
      let gd : Fd := ⟨gd.toNat, h⟩
      let g := (s.proc p).ofile gd
      if g = some f then
        .ok (gd.val, s)
      else do
        let s ←
          match g with
          | none => .ok s
          | some g => (s.setSlot p gd none).fileclose g
        let s ← (s.setSlot p gd (some f)).filedup f
        return (gd.val, s)
    else
      .ok (-1, s)

def pipealloc (s : FileSys) (page : Option PageAddr) : Except Fault (Option (FileId × FileId) × FileSys) :=
  match s.filealloc with
  | (none, s) => .ok (none, s)
  | (some f0, s) =>
    match s.filealloc with
    | (none, s) => do
      let s ← s.fileclose f0
      return (none, s)
    | (some f1, s) =>
      match page with
      | none => do
        let s ← s.fileclose f0
        let s ← s.fileclose f1
        return (none, s)
      | some page =>
        let s := s.setPipe page (some ⟨true, true⟩)
        let s := s.setFile f0 ⟨.pipe page, (s.file f0).ref, true, false⟩
        let s := s.setFile f1 ⟨.pipe page, (s.file f1).ref, false, true⟩
        .ok (some (f0, f1), s)

def sysPipe (s : FileSys) (p : Fin NPROC) (page : Option PageAddr) : Except Fault (Int × FileSys) := do
  match ← s.pipealloc page with
  | (none, s) => return (-1, s)
  | (some (rf, wf), s) =>
    match s.fdalloc p rf with
    | (none, s) =>
      let s ← s.fileclose rf
      let s ← s.fileclose wf
      return (-1, s)
    | (some fd0, s) =>
      match s.fdalloc p wf with
      | (none, s) =>
        let s ← (s.setSlot p fd0 none).fileclose rf
        let s ← s.fileclose wf
        return (-1, s)
      | (some _, s) => return (0, s)

def sysChdir (s : FileSys) (p : Fin NPROC) (path : Path) (isDir : Bool)
    : Except Fault (Int × FileSys) := do
  match ← s.namex p path false with
  | (none, s) => return (-1, s)
  | (some ip, s) =>
    s.ilock ip
    if isDir = false then
      return (-1, s.iput ip)
    match (s.proc p).cwd with
    | none => .error .nullDeref
    | some cwd => return (0, (s.iput cwd).setCwd p (some ip))

-- exec drops its reference to the file whether it succeeds or not
def exec (s : FileSys) (p : Fin NPROC) (path : Path) : Except Fault (Int × FileSys) := do
  match ← s.namex p path false with
  | (none, s) => return (-1, s)
  | (some ip, s) =>
    s.ilock ip
    return (0, s.iput ip)

def forkFile (curproc np : Fin NPROC) (s : FileSys) (fd : Fd) : Except Fault FileSys :=
  match (s.proc curproc).ofile fd with
  | none => .ok s
  | some f => do
    let s ← s.filedup f
    return s.setSlot np fd (some f)

def fork (s : FileSys) (p : Fin NPROC) (copyuvm : Bool) : Except Fault (Int × FileSys) :=
  match (List.finRange NPROC).find? (fun np => (s.proc np).state = .unused) with
  | none => .ok (-1, s)
  | some np =>
    if copyuvm = false then
      .ok (-1, s)
    else do
      let s := s.setProc np { s.proc np with state := .live }
      let s ← (List.finRange NOFILE).foldlM (forkFile p np) s
      match (s.proc p).cwd with
      | none => .error .nullDeref
      | some cwd => return (np.val, (s.idup cwd).setCwd np (some cwd))

def exitFile (curproc : Fin NPROC) (s : FileSys) (fd : Fd) : Except Fault FileSys :=
  match (s.proc curproc).ofile fd with
  | none => .ok s
  | some f => do
    let s ← s.fileclose f
    return s.setSlot curproc fd none

def exit (s : FileSys) (p : Fin NPROC) : Except Fault FileSys := do
  let s ← (List.finRange NOFILE).foldlM (exitFile p) s
  match (s.proc p).cwd with
  | none => .error .nullDeref
  | some cwd =>
    let s := (s.iput cwd).setCwd p none
    return s.setProc p { s.proc p with state := .zombie }

def reap (s : FileSys) (p : Fin NPROC) : FileSys :=
  s.setProc p { s.proc p with state := .unused }

def loaded : FileSys where
  file _ := ⟨.none, 0, false, false⟩
  inode _ := ⟨0, 0⟩
  pipe _ := none
  proc _ := ⟨.unused, fun _ => none, none⟩

def userinit (s : FileSys) (p : Fin NPROC) : Except Fault FileSys := do
  let (ip, s) ← s.namex p ⟨true, []⟩ false
  return (s.setCwd p ip).setProc p { (s.setCwd p ip).proc p with state := .live }

inductive Call where
  | open (args : OpenArgs)
  | close (fd : BitVec 32)
  | dup (fd : BitVec 32)
  | dup2 (fd gd : BitVec 32)
  | pipe (page : Option PageAddr)
  | chdir (path : Path) (isDir : Bool)
  | fork (copyuvm : Bool)
  | exec (path : Path)
  | exit
  deriving DecidableEq, Repr

def call (s : FileSys) (p : Fin NPROC) : Call → Except Fault FileSys
  | .open args => (s.sysOpen p args).map Prod.snd
  | .close fd => (s.sysClose p fd).map Prod.snd
  | .dup fd => (s.sysDup p fd).map Prod.snd
  | .dup2 fd gd => (s.sysDup2 p fd gd).map Prod.snd
  | .pipe page => (s.sysPipe p page).map Prod.snd
  | .chdir path isDir => (s.sysChdir p path isDir).map Prod.snd
  | .fork copyuvm => (s.fork p copyuvm).map Prod.snd
  | .exec path => (s.exec p path).map Prod.snd
  | .exit => s.exit p

inductive Event where
  | call (p : Fin NPROC) (c : Call)
  | reap (p : Fin NPROC)
  deriving DecidableEq, Repr

inductive Step (s : FileSys) : Event → FileSys → Prop where
  -- kalloc returns a page that is not in use
  | call {p c t} :
      (s.proc p).state = .live → (∀ page, c = .pipe (some page) → s.pipe page = none) →
        s.call p c = .ok t → Step s (.call p c) t
  | reap {p} : (s.proc p).state = .zombie → Step s (.reap p) (s.reap p)

end FileSys
end Xv6
