import Mathlib.Data.List.FinRange
import Xv6.Data.Transition
import Xv6.File.Impl.File
import Xv6.Fs.Basic

/-!
Directories, link counts and references to inodes, as the directory layer of `fs.c` and the system
calls of `sysfile.c` change them. The cached copy of an inode and the one on the disk are the same as
long as the cached one is valid, so there is one record for both. A call runs to its end before the
next one begins.
-/

namespace Xv6

abbrev Inum := Fin Mkfs.NINODES

abbrev rootIno : Inum := 1

inductive InodeType where
  | dir
  | file
  | dev
  deriving DecidableEq, Repr

-- no inode has the number 0: an entry with it is empty
structure Dirent where
  inum : Inum
  name : String
  deriving DecidableEq, Repr

structure Dinode where
  -- a free inode has no type
  type : Option InodeType
  nlink : Int
  ents : List Dirent
  deriving DecidableEq, Repr

structure DirSys where
  node : Inum → Dinode
  ref : Inum → Int
  valid : Inum → Bool
  cwd : Fin NPROC → Option Inum
  -- the inodes of the open files
  ofile : Fin NPROC × Fd → Option Inum

structure DirPath where
  absolute : Bool
  elems : List String
  deriving DecidableEq, Repr

def DirPath.last (path : DirPath) : String := path.elems.getLast?.getD ""

def insertEnt (e : Dirent) : List Dirent → List Dirent
  | [] => [e]
  | d :: l => if d.inum = 0 then e :: l else d :: insertEnt e l

abbrev NDIRENT : Nat := MAXFILE * BSIZE / 16

namespace DirSys

def setNode (s : DirSys) (i : Inum) (x : Dinode) : DirSys :=
  { s with node := Function.update s.node i x }

def setRef (s : DirSys) (i : Inum) (n : Int) : DirSys :=
  { s with ref := Function.update s.ref i n }

def setValid (s : DirSys) (i : Inum) (v : Bool) : DirSys :=
  { s with valid := Function.update s.valid i v }

def iget (s : DirSys) (i : Inum) : DirSys :=
  if s.ref i > 0 then
    s.setRef i (s.ref i + 1)
  else
    (s.setRef i 1).setValid i false

def idup (s : DirSys) (i : Inum) : DirSys := s.setRef i (s.ref i + 1)

def ilock (s : DirSys) (i : Inum) : Except Fault DirSys :=
  if s.ref i < 1 then
    .error (.panic "ilock")
  else if s.valid i then
    .ok s
  else if (s.node i).type = none then
    .error (.panic "ilock: no type")
  else
    .ok (s.setValid i true)

def iput (s : DirSys) (i : Inum) : DirSys :=
  let s :=
    if s.valid i = true ∧ (s.node i).nlink = 0 ∧ s.ref i = 1 then
      (s.setNode i { s.node i with type := none, ents := [] }).setValid i false
    else
      s
  s.setRef i (s.ref i - 1)

def ialloc (s : DirSys) (type : InodeType) : Except Fault (Inum × DirSys) :=
  match (List.finRange Mkfs.NINODES).find? (fun i => i ≠ 0 ∧ (s.node i).type = none) with
  | none => .error (.panic "ialloc: no inodes")
  | some i => .ok (i, (s.setNode i ⟨some type, 0, []⟩).iget i)

def findEnt (ents : List Dirent) (name : String) : Option Nat :=
  ents.findIdx? (fun e => e.inum ≠ 0 ∧ e.name = name)

def dirlookup (s : DirSys) (dp : Inum) (name : String) : Except Fault (Option (Nat × Inum) × DirSys) :=
  if (s.node dp).type ≠ some .dir then
    .error (.panic "dirlookup not DIR")
  else
    match findEnt (s.node dp).ents name with
    | none => .ok (none, s)
    | some off =>
      let inum := ((s.node dp).ents[off]?.map Dirent.inum).getD 0
      .ok (some (off, inum), s.iget inum)

def dirlink (s : DirSys) (dp : Inum) (name : String) (inum : Inum) : Except Fault (Bool × DirSys) := do
  match ← s.dirlookup dp name with
  | (some (_, ip), s) =>
    -- iput waits for the lock of ip, and the caller holds that of dp
    if ip = dp then
      .error .diverges
    else
      return (false, s.iput ip)
  | (none, s) =>
    if (s.node dp).ents.length ≥ NDIRENT ∧ ∀ e ∈ (s.node dp).ents, e.inum ≠ 0 then
      .error (.panic "dirlink")
    else
      return (true, s.setNode dp { s.node dp with ents := insertEnt ⟨inum, name⟩ (s.node dp).ents })

def namexLoop (parent : Bool) : List String → DirSys → Inum → Except Fault (Option Inum × DirSys)
  | [], s, ip =>
    if parent then
      .ok (none, s.iput ip)
    else
      .ok (some ip, s)
  | name :: rest, s, ip => do
    let s ← s.ilock ip
    if (s.node ip).type ≠ some .dir then
      return (none, s.iput ip)
    else if parent = true ∧ rest = [] then
      return (some ip, s)
    else
      match ← s.dirlookup ip name with
      | (none, s) => return (none, s.iput ip)
      | (some (_, next), s) => namexLoop parent rest (s.iput ip) next

def namex (s : DirSys) (p : Fin NPROC) (path : DirPath) (parent : Bool)
    : Except Fault (Option Inum × DirSys) :=
  if path.absolute then
    namexLoop parent path.elems (s.iget rootIno) rootIno
  else
    match s.cwd p with
    | none => .error .nullDeref
    | some ip => namexLoop parent path.elems (s.idup ip) ip

def setNlink (s : DirSys) (i : Inum) (n : Int) : DirSys := s.setNode i { s.node i with nlink := n }

def create (s : DirSys) (p : Fin NPROC) (path : DirPath) (type : InodeType)
    : Except Fault (Option Inum × DirSys) := do
  match ← s.namex p path true with
  | (none, s) => return (none, s)
  | (some dp, s) =>
    let s ← s.ilock dp
    match ← s.dirlookup dp path.last with
    | (some (_, ip), s) =>
      let s ← (s.iput dp).ilock ip
      if type = .file ∧ (s.node ip).type = some .file then
        return (some ip, s)
      else
        return (none, s.iput ip)
    | (none, s) =>
      let (ip, s) ← s.ialloc type
      let s ← s.ilock ip
      let s := s.setNlink ip 1
      let s ←
        if type = .dir then do
          let s := s.setNlink dp ((s.node dp).nlink + 1)
          let (ok, s) ← s.dirlink ip "." ip
          if ok = false then
            .error (.panic "create dots")
          else
            let (ok, s) ← s.dirlink ip ".." dp
            if ok = false then
              .error (.panic "create dots")
            else
              .ok s
        else
          .ok s
      let (ok, s) ← s.dirlink dp path.last ip
      if ok = false then
        .error (.panic "create: dirlink")
      else
        return (some ip, s.iput dp)

def linkBad (s : DirSys) (ip : Inum) : Except Fault DirSys := do
  let s ← s.ilock ip
  return (s.setNlink ip ((s.node ip).nlink - 1)).iput ip

def sysLink (s : DirSys) (p : Fin NPROC) (old new : DirPath) : Except Fault (Int × DirSys) := do
  match ← s.namex p old false with
  | (none, s) => return (-1, s)
  | (some ip, s) =>
    let s ← s.ilock ip
    if (s.node ip).type = some .dir then
      return (-1, s.iput ip)
    else
      let s := s.setNlink ip ((s.node ip).nlink + 1)
      match ← s.namex p new true with
      | (none, s) =>
        let s ← s.linkBad ip
        return (-1, s)
      | (some dp, s) =>
        let s ← s.ilock dp
        let (ok, s) ← s.dirlink dp new.last ip
        if ok = false then
          let s ← (s.iput dp).linkBad ip
          return (-1, s)
        else
          return (0, (s.iput dp).iput ip)

def isdirempty (x : Dinode) : Bool := (x.ents.drop 2).all (fun e => e.inum = 0)

def sysUnlink (s : DirSys) (p : Fin NPROC) (path : DirPath) : Except Fault DirSys := do
  match ← s.namex p path true with
  | (none, s) => return s
  | (some dp, s) =>
    let s ← s.ilock dp
    if path.last = "." ∨ path.last = ".." then
      return s.iput dp
    else
      match ← s.dirlookup dp path.last with
      | (none, s) => return s.iput dp
      | (some (off, ip), s) =>
        let s ← s.ilock ip
        if (s.node ip).nlink < 1 then
          .error (.panic "unlink: nlink < 1")
        else if (s.node ip).type = some .dir ∧ isdirempty (s.node ip) = false then
          return (s.iput ip).iput dp
        else
          let s := s.setNode dp { s.node dp with ents := (s.node dp).ents.set off ⟨0, ""⟩ }
          let s :=
            if (s.node ip).type = some .dir then
              s.setNlink dp ((s.node dp).nlink - 1)
            else
              s
          let s := s.iput dp
          let s := s.setNlink ip ((s.node ip).nlink - 1)
          return s.iput ip

structure OpenMode where
  create : Bool
  rdonly : Bool
  -- whether filealloc finds a free entry
  filealloc : Bool
  deriving DecidableEq, Repr

def openInode (s : DirSys) (p : Fin NPROC) (path : DirPath) (mode : OpenMode)
    : Except Fault (Option Inum × DirSys) :=
  if mode.create then
    s.create p path .file
  else do
    match ← s.namex p path false with
    | (none, s) => return (none, s)
    | (some ip, s) =>
      let s ← s.ilock ip
      if (s.node ip).type = some .dir ∧ mode.rdonly = false then
        return (none, s.iput ip)
      else
        return (some ip, s)

def sysOpen (s : DirSys) (p : Fin NPROC) (path : DirPath) (mode : OpenMode)
    : Except Fault (Int × DirSys) := do
  match ← s.openInode p path mode with
  | (none, s) => return (-1, s)
  | (some ip, s) =>
    match (List.finRange NOFILE).find? (fun fd => s.ofile (p, fd) = none) with
    | none => return (-1, s.iput ip)
    | some fd =>
      if mode.filealloc then
        return (fd.val, { s with ofile := Function.update s.ofile (p, fd) (some ip) })
      else
        return (-1, s.iput ip)

def sysMake (s : DirSys) (p : Fin NPROC) (path : DirPath) (type : InodeType)
    : Except Fault (Int × DirSys) := do
  match ← s.create p path type with
  | (none, s) => return (-1, s)
  | (some ip, s) => return (0, s.iput ip)

def sysChdir (s : DirSys) (p : Fin NPROC) (path : DirPath) : Except Fault DirSys := do
  match ← s.namex p path false with
  | (none, s) => return s
  | (some ip, s) =>
    let s ← s.ilock ip
    if (s.node ip).type ≠ some .dir then
      return s.iput ip
    else
      match s.cwd p with
      | none => .error .nullDeref
      | some cwd =>
        let s := s.iput cwd
        return { s with cwd := Function.update s.cwd p (some ip) }

def close (s : DirSys) (p : Fin NPROC) (fd : Fd) : DirSys :=
  match s.ofile (p, fd) with
  | none => s
  | some ip => { s with ofile := Function.update s.ofile (p, fd) none }.iput ip

def exit (s : DirSys) (p : Fin NPROC) : Except Fault DirSys :=
  let s := (List.finRange NOFILE).foldl (fun s fd => s.close p fd) s
  match s.cwd p with
  | none => .error .nullDeref
  | some cwd =>
    let s := s.iput cwd
    .ok { s with cwd := Function.update s.cwd p none }

inductive Call where
  | open (path : DirPath) (mode : OpenMode)
  | mkdir (path : DirPath)
  | mknod (path : DirPath)
  | link (old new : DirPath)
  | unlink (path : DirPath)
  | chdir (path : DirPath)
  | close (fd : Fd)
  | exit
  deriving DecidableEq, Repr

def call (s : DirSys) (p : Fin NPROC) : Call → Except Fault DirSys
  | .open path mode => Prod.snd <$> s.sysOpen p path mode
  | .mkdir path => Prod.snd <$> s.sysMake p path .dir
  | .mknod path => Prod.snd <$> s.sysMake p path .dev
  | .link old new => Prod.snd <$> s.sysLink p old new
  | .unlink path => s.sysUnlink p path
  | .chdir path => s.sysChdir p path
  | .close fd => .ok (s.close p fd)
  | .exit => s.exit p

inductive Add where
  | link (old new : DirPath)
  | open (path : DirPath) (rdonly filealloc : Bool)
  | mkdir (path : DirPath)
  | mknod (path : DirPath)
  deriving DecidableEq, Repr

def Add.path : Add → DirPath
  | .link _ new => new
  | .open path _ _ => path
  | .mkdir path => path
  | .mknod path => path

def add (s : DirSys) (p : Fin NPROC) : Add → Except Fault (Int × DirSys)
  | .link old new => s.sysLink p old new
  | .open path rdonly filealloc => s.sysOpen p path ⟨true, rdonly, filealloc⟩
  | .mkdir path => s.sysMake p path .dir
  | .mknod path => s.sysMake p path .dev

structure Event where
  p : Fin NPROC
  call : Call
  deriving DecidableEq, Repr

-- a process that has not exited has a current directory
def Step (s : DirSys) (e : Event) (t : DirSys) : Prop :=
  s.cwd e.p ≠ none ∧ s.call e.p e.call = .ok t

abbrev EventRun (ok : DirSys → Event → Prop) (s : DirSys) (es : List Event) (t : DirSys) : Prop :=
  Transition.Run Step ok s es t

end DirSys
end Xv6
