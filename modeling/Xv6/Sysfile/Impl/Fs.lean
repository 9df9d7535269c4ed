import Xv6.Data.Prog
import Xv6.Fs.Impl.Inode
import Xv6.Icache.Impl.Icache

/-!
The inode layer and the directories of `fs.c` while one process runs. The blocks are as the buffer
cache has them: an inode block is given by its dinodes and a bitmap block by its bits. `calls` is what
the process has called of begin_op, end_op, iput and log_write, in this order.
-/

open Prog

namespace Xv6
namespace Sysfile

inductive Call where
  | beginOp
  | endOp
  | iput
  | logWrite (b : Nat)
  deriving DecidableEq

structure OpenFile where
  type : FileType
  ref : Int
  readable : Bool
  writable : Bool
  off : Nat

structure Sys where
  inode : InodeId → Icache.Inode
  -- the sleep locks of the inodes
  locked : InodeId → Bool
  dinode : BitVec 32 → Icache.Dinode
  used : Nat → Bool
  block : Nat → Block
  file : FileId → OpenFile
  ofile : Fd → Option FileId
  cwd : Option InodeId
  calls : List Call

abbrev Byte := BitVec 8

abbrev NDEV : Nat := 10

-- devsw, and pipewrite on the pipe that a file is
structure Devices where
  read : Fin NDEV → Option (Nat → Option (List Byte))
  write : Fin NDEV → Option (List Byte → Int)
  pipewrite : List Byte → Int

abbrev M := Prog Sys Fault

namespace Sys

def setInode (s : Sys) (ip : InodeId) (x : Icache.Inode) : Sys :=
  { s with inode := Function.update s.inode ip x }

def setData (s : Sys) (ip : InodeId) (data : Icache.Dinode) : Sys :=
  s.setInode ip { s.inode ip with data }

def setAddrs (s : Sys) (ip : InodeId) (i : Fin (NDIRECT + 1)) (addr : BitVec 32) : Sys :=
  s.setData ip
    { (s.inode ip).data with addrs := Function.update (s.inode ip).data.addrs i addr }

def setNlink (s : Sys) (ip : InodeId) (nlink : BitVec 16) : Sys :=
  s.setData ip { (s.inode ip).data with nlink }

def setSize (s : Sys) (ip : InodeId) (size : BitVec 32) : Sys :=
  s.setData ip { (s.inode ip).data with size }

def setRef (s : Sys) (ip : InodeId) (ref : Nat) : Sys :=
  s.setInode ip { s.inode ip with ref }

def setLocked (s : Sys) (ip : InodeId) (x : Bool) : Sys :=
  { s with locked := Function.update s.locked ip x }

def setDinode (s : Sys) (inum : BitVec 32) (x : Icache.Dinode) : Sys :=
  { s with dinode := Function.update s.dinode inum x }

def setUsed (s : Sys) (b : Nat) (x : Bool) : Sys :=
  { s with used := Function.update s.used b x }

def setBlock (s : Sys) (b : Nat) (x : Block) : Sys :=
  { s with block := Function.update s.block b x }

def setFile (s : Sys) (f : FileId) (x : OpenFile) : Sys :=
  { s with file := Function.update s.file f x }

def setSlot (s : Sys) (fd : Fd) (x : Option FileId) : Sys :=
  { s with ofile := Function.update s.ofile fd x }

def record (s : Sys) (c : Call) : Sys := { s with calls := s.calls ++ [c] }

end Sys

def panic (msg : String) : M α := throw (.panic msg)

def beginOp : M Unit := modify (·.record .beginOp)
def endOp : M Unit := modify (·.record .endOp)
def logWrite (b : Nat) : M Unit := modify (·.record (.logWrite b))

variable (sb : Superblock) (devs : Devices)

def balloc : M (BitVec 32) := do
  let s ← get
  match (List.range sb.size).find? (fun b => !s.used b) with
  | none => panic "balloc: out of blocks"
  | some b =>
    modify (·.setUsed b true)
    logWrite (sb.bblock b)
    -- bzero
    modify (·.setBlock b Bytes.zero)
    logWrite b
    return BitVec.ofNat 32 b

def bfree (addr : BitVec 32) : M Unit := do
  let s ← get
  if s.used addr.toNat = false then
    panic "freeing free block"
  else
    modify (·.setUsed addr.toNat false)
    logWrite (sb.bblock addr.toNat)

def iupdate (ip : InodeId) : M Unit := do
  let s ← get
  modify (·.setDinode (s.inode ip).inum (s.inode ip).data)
  logWrite (sb.iblock (s.inode ip).inum.toNat)

def iget (dev inum : BitVec 32) : M InodeId := do
  let s ← get
  match (List.finRange NINODE).find? (fun ip =>
      (s.inode ip).ref > 0 ∧ (s.inode ip).dev = dev ∧ (s.inode ip).inum = inum) with
  | some ip =>
    modify (·.setRef ip ((s.inode ip).ref + 1))
    return ip
  | none =>
    match (List.finRange NINODE).find? (fun ip => (s.inode ip).ref = 0) with
    | none => panic "iget: no inodes"
    | some ip =>
      modify (·.setInode ip { s.inode ip with dev, inum, ref := 1, valid := false })
      return ip

def idup (ip : InodeId) : M InodeId := do
  modify fun s => s.setRef ip ((s.inode ip).ref + 1)
  return ip

def ialloc (dev : BitVec 32) (type : BitVec 16) : M InodeId := do
  let s ← get
  match (List.range sb.ninodes).find? (fun i => i ≠ 0 ∧ (s.dinode (BitVec.ofNat 32 i)).type = 0) with
  | none => panic "ialloc: no inodes"
  | some i =>
    modify (·.setDinode (BitVec.ofNat 32 i) (.fresh type))
    logWrite (sb.iblock i)
    iget dev (BitVec.ofNat 32 i)

-- With no other process to release it, a lock that is held is waited for in vain.
def acquiresleep (ip : InodeId) : M Unit := do
  let s ← get
  if s.locked ip then
    throw .diverges
  else
    modify (·.setLocked ip true)

def releasesleep (ip : InodeId) : M Unit := modify (·.setLocked ip false)

def ilock (ip : InodeId) : M Unit := do
  let s ← get
  if (s.inode ip).ref < 1 then
    panic "ilock"
  else
    acquiresleep ip
    when ((s.inode ip).valid = false) do
      modify (·.setInode ip { s.inode ip with data := s.dinode (s.inode ip).inum, valid := true })
      when ((s.dinode (s.inode ip).inum).type = 0) (panic "ilock: no type")

def iunlock (ip : InodeId) : M Unit := do
  let s ← get
  if s.locked ip = false ∨ (s.inode ip).ref < 1 then
    panic "iunlock"
  else
    releasesleep ip

def bfreeList : List (BitVec 32) → M Unit
  | [] => pure ()
  | addr :: l => do
    when (addr ≠ 0) (bfree sb addr)
    bfreeList l

def itruncDirect (ip : InodeId) : List (Fin NDIRECT) → M Unit
  | [] => pure ()
  | i :: l => do
    let s ← get
    when ((s.inode ip).data.addrs i.castSucc ≠ 0) do
      bfree sb ((s.inode ip).data.addrs i.castSucc)
      modify (·.setAddrs ip i.castSucc 0)
    itruncDirect ip l

def indirects (a : Block) : List (BitVec 32) :=
  (List.range NINDIRECT).map fun j => a.getWord (4 * j)

def itrunc (ip : InodeId) : M Unit := do
  itruncDirect sb ip (List.finRange NDIRECT)
  let s ← get
  let addr := (s.inode ip).data.addrs (Fin.last NDIRECT)
  when (addr ≠ 0) do
    bfreeList sb (indirects (s.block addr.toNat))
    bfree sb addr
    modify (·.setAddrs ip (Fin.last NDIRECT) 0)
  modify (·.setSize ip 0)
  iupdate sb ip

def iput (ip : InodeId) : M Unit := do
  modify (·.record .iput)
  acquiresleep ip
  let s ← get
  when ((s.inode ip).valid = true ∧ (s.inode ip).data.nlink = 0 ∧ (s.inode ip).ref = 1) do
    itrunc sb ip
    modify fun s => s.setData ip { (s.inode ip).data with type := 0 }
    iupdate sb ip
    modify fun s => s.setInode ip { s.inode ip with valid := false }
  releasesleep ip
  modify fun s => s.setRef ip ((s.inode ip).ref - 1)

def iunlockput (ip : InodeId) : M Unit := do
  iunlock ip
  iput sb ip

def addrsAlloc (ip : InodeId) (i : Fin (NDIRECT + 1)) : M (BitVec 32) := do
  let s ← get
  if (s.inode ip).data.addrs i = 0 then
    let addr ← balloc sb
    modify (·.setAddrs ip i addr)
    return addr
  else
    return (s.inode ip).data.addrs i

def bmap (ip : InodeId) (bn : Nat) : M (BitVec 32) :=
  if h : bn < NDIRECT then
    addrsAlloc sb ip ⟨bn, Nat.lt_succ_of_lt h⟩
  else if bn - NDIRECT < NINDIRECT then do
    let addr ← addrsAlloc sb ip (Fin.last NDIRECT)
    let s ← get
    let word := (s.block addr.toNat).getWord (4 * (bn - NDIRECT))
    if word = 0 then
      let word ← balloc sb
      modify fun s =>
        s.setBlock addr.toNat ((s.block addr.toNat).setWord (4 * (bn - NDIRECT)) word)
      logWrite addr.toNat
      return word
    else
      return word
  else
    panic "bmap: out of range"

abbrev T_DIR : BitVec 16 := 1
abbrev T_FILE : BitVec 16 := 2
abbrev T_DEV : BitVec 16 := 3

-- Every iteration copies at least one byte.
def readiLoop (ip : InodeId) : Nat → Nat → Nat → M (List Byte)
  | 0, _, _ => pure []
  | fuel + 1, off, n =>
    if 0 < n then do
      let addr ← bmap sb ip (off / BSIZE)
      let s ← get
      let m := min n (BSIZE - off % BSIZE)
      let part := (List.range m).map (fun i => (s.block addr.toNat).byte (off % BSIZE + i))
      let rest ← readiLoop ip fuel (off + m) (n - m)
      return part ++ rest
    else
      pure []

def readi (ip : InodeId) (off n : Nat) : M (Option (List Byte)) := do
  let s ← get
  let data := (s.inode ip).data
  if data.type = T_DEV then
    if h : data.major.toNat < NDEV then
      return (devs.read ⟨data.major.toNat, h⟩).bind (fun read => read n)
    else
      return none
  else if off > data.size.toNat ∨ off + n ≥ 2 ^ 32 then
    return none
  else
    let n := if off + n > data.size.toNat then data.size.toNat - off else n
    let dst ← readiLoop sb ip n off n
    return some dst

def writeiLoop (ip : InodeId) : Nat → List Byte → Nat → M Unit
  | 0, _, _ => pure ()
  | fuel + 1, src, off =>
    if 0 < src.length then do
      let addr ← bmap sb ip (off / BSIZE)
      let m := min src.length (BSIZE - off % BSIZE)
      modify fun s =>
        s.setBlock addr.toNat ((s.block addr.toNat).blit (off % BSIZE) m (src.getD · 0))
      logWrite addr.toNat
      writeiLoop ip fuel (src.drop m) (off + m)
    else
      pure ()

def writei (ip : InodeId) (src : List Byte) (off : Nat) : M Int := do
  let s ← get
  let data := (s.inode ip).data
  if data.type = T_DEV then
    if h : data.major.toNat < NDEV then
      return ((devs.write ⟨data.major.toNat, h⟩).map (fun write => write src)).getD (-1)
    else
      return -1
  else if off > data.size.toNat ∨ off + src.length ≥ 2 ^ 32 then
    return -1
  else if off + src.length > MAXFILE * BSIZE then
    return -1
  else
    writeiLoop sb ip src.length src off
    when (0 < src.length ∧ off + src.length > data.size.toNat) do
      modify (·.setSize ip (BitVec.ofNat 32 (off + src.length)))
      iupdate sb ip
    return src.length

abbrev Name := List Byte

def entries (s : Sys) (dp : InodeId) : Nat := ((s.inode dp).data.size.toNat + 15) / 16

-- the entry at the offset, for which `msg` is the panic message
def readDirent (dp : InodeId) (off : Nat) (msg : String) : M (List Byte) := do
  match ← readi sb devs dp off 16 with
  | none => panic msg
  | some de => if de.length ≠ 16 then panic msg else return de

def dirlookupLoop (dp : InodeId) (name : Name) : Nat → Nat → M (Option (InodeId × Nat))
  | 0, _ => pure none
  | k + 1, off => do
    let de ← readDirent sb devs dp off "dirlookup read"
    if Fs.direntInum de ≠ 0 ∧ Fs.namecmpEq name (de.drop 2) then
      let s ← get
      let ip ← iget (s.inode dp).dev (BitVec.ofNat 32 (Fs.direntInum de))
      return some (ip, off)
    else
      dirlookupLoop dp name k (off + 16)

def dirlookup (dp : InodeId) (name : Name) : M (Option (InodeId × Nat)) := do
  let s ← get
  if (s.inode dp).data.type ≠ T_DIR then
    panic "dirlookup not DIR"
  else
    dirlookupLoop sb devs dp name (entries s dp) 0

def dirlinkLoop (dp : InodeId) : Nat → Nat → M Nat
  | 0, off => pure off
  | k + 1, off => do
    let de ← readDirent sb devs dp off "dirlink read"
    if Fs.direntInum de = 0 then
      return off
    else
      dirlinkLoop dp k (off + 16)

def dirent (name : Name) (inum : BitVec 32) : List Byte :=
  [inum.setWidth 8, (inum >>> 8).setWidth 8] ++ (List.range Fs.DIRSIZ).map (fun i => name.getD i 0)

def dirlink (dp : InodeId) (name : Name) (inum : BitVec 32) : M Bool := do
  match ← dirlookup sb devs dp name with
  | some (ip, _) =>
    iput sb ip
    return false
  | none =>
    let s ← get
    let off ← dirlinkLoop sb devs dp (entries s dp) 0
    let r ← writei sb devs dp (dirent name inum) off
    if r ≠ 16 then
      panic "dirlink"
    else
      return true

abbrev slash : Byte := 47

-- the next element, cut off after DIRSIZ bytes, and the rest of the path
def skipelem (path : List Byte) : Option (Name × List Byte) :=
  let path := path.dropWhile (· = slash)
  if path = [] then
    none
  else
    some ((path.takeWhile (· ≠ slash)).take Fs.DIRSIZ,
      (path.dropWhile (· ≠ slash)).dropWhile (· = slash))

-- Every element takes at least one byte.
def elems : Nat → List Byte → List Name
  | 0, _ => []
  | fuel + 1, path =>
    match skipelem path with
    | none => []
    | some (name, rest) => name :: elems fuel rest

def namexLoop (nameiparent : Bool) (ip : InodeId) : List Name → M (Option (InodeId × Name))
  | [] =>
    if nameiparent then do
      iput sb ip
      return none
    else
      return some (ip, [])
  | name :: rest => do
    ilock ip
    let s ← get
    if (s.inode ip).data.type ≠ T_DIR then
      iunlockput sb ip
      return none
    else if nameiparent = true ∧ rest = [] then
      iunlock ip
      return some (ip, name)
    else
      match ← dirlookup sb devs ip name with
      | none =>
        iunlockput sb ip
        return none
      | some (next, _) =>
        iunlockput sb ip
        namexLoop nameiparent next rest

abbrev ROOTDEV : BitVec 32 := 1

def namexStart (path : List Byte) : M InodeId := do
  if path.head? = some slash then
    iget ROOTDEV 1
  else
    let s ← get
    match s.cwd with
    | none => throw .nullDeref
    | some cwd => idup cwd

def namex (path : List Byte) (nameiparent : Bool) : M (Option (InodeId × Name)) := do
  let ip ← namexStart path
  namexLoop sb devs nameiparent ip (elems path.length path)

def namei (path : List Byte) : M (Option InodeId) := do
  let r ← namex sb devs path false
  return r.map Prod.fst

def nameiparent (path : List Byte) : M (Option (InodeId × Name)) :=
  namex sb devs path true

end Sysfile
end Xv6
