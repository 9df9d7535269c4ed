import Mathlib.Data.List.FinRange
import Xv6.Data.Transition
import Xv6.Fs.Basic
import Xv6.File.Impl.File

/-!
The inode cache of `fs.c`: the table icache.inode, the sleep locks of its entries, and the dinodes as
the buffer cache has them. A use of the cache is one reference to an entry, from the iget or idup that
makes it to the end of the iput that drops it. What runs under icache.lock is one step, and so is what
is done to a dinode while its buffer is locked.
-/

namespace Xv6
namespace Icache

structure Dinode where
  type : BitVec 16
  major : BitVec 16
  minor : BitVec 16
  nlink : BitVec 16
  size : BitVec 32
  addrs : Fin (NDIRECT + 1) → BitVec 32

structure Inode where
  dev : BitVec 32
  inum : BitVec 32
  ref : Nat
  valid : Bool
  data : Dinode

namespace Dinode

def fresh (type : BitVec 16) : Dinode :=
  { type, major := 0, minor := 0, nlink := 0, size := 0, addrs := fun _ => 0 }

-- what itrunc does to ip before it calls iupdate
def itrunc (x : Dinode) : Dinode :=
  { x with size := 0, addrs := fun _ => 0 }

end Dinode

inductive Pc where
  | idle
  -- ialloc has taken the dinode and calls iget
  | ialloc (dev inum : BitVec 32)
  | holds (ip : InodeId)
  -- ilock calls acquiresleep
  | wants (ip : InodeId)
  | locked (ip : InodeId)
  -- ilock has returned; whether a field has been changed since the last iupdate
  | editing (ip : InodeId) (changed : Bool)
  -- iput has the sleep lock
  | iput (ip : InodeId)
  -- iput has found the only reference to an inode without links
  | freeing (ip : InodeId)
  | truncating (ip : InodeId)
  | truncated (ip : InodeId)
  -- the type is zero in memory, and then on disk
  | typing (ip : InodeId)
  | freed (ip : InodeId)
  | unlocking (ip : InodeId)
  -- iput has called releasesleep
  | unlocked (ip : InodeId)
  deriving DecidableEq

namespace Pc

def ref : Pc → Option InodeId
  | .idle => none
  | .ialloc _ _ => none
  | .holds ip => some ip
  | .wants ip => some ip
  | .locked ip => some ip
  | .editing ip _ => some ip
  | .iput ip => some ip
  | .freeing ip => some ip
  | .truncating ip => some ip
  | .truncated ip => some ip
  | .typing ip => some ip
  | .freed ip => some ip
  | .unlocking ip => some ip
  | .unlocked ip => some ip

end Pc
end Icache

open Icache

structure IcacheSys (ι : Type) where
  inode : InodeId → Inode
  lock : InodeId → Option ι
  -- the dinodes of each device in the buffer cache
  dinode : BitVec 32 × BitVec 32 → Icache.Dinode
  pc : ι → Pc

namespace IcacheSys

variable {ι : Type} [DecidableEq ι]

def setInode (s : IcacheSys ι) (ip : InodeId) (x : Inode) : IcacheSys ι :=
  { s with inode := Function.update s.inode ip x }

def setData (s : IcacheSys ι) (ip : InodeId) (data : Icache.Dinode) : IcacheSys ι :=
  s.setInode ip { s.inode ip with data }

def setLock (s : IcacheSys ι) (ip : InodeId) (x : Option ι) : IcacheSys ι :=
  { s with lock := Function.update s.lock ip x }

def setDinode (s : IcacheSys ι) (dev inum : BitVec 32) (x : Icache.Dinode) : IcacheSys ι :=
  { s with dinode := Function.update s.dinode (dev, inum) x }

def setPc (s : IcacheSys ι) (u : ι) (x : Pc) : IcacheSys ι :=
  { s with pc := Function.update s.pc u x }

def dip (s : IcacheSys ι) (ip : InodeId) : Icache.Dinode :=
  s.dinode ((s.inode ip).dev, (s.inode ip).inum)

def iget (s : IcacheSys ι) (dev inum : BitVec 32) : Except Fault (InodeId × IcacheSys ι) :=
  match (List.finRange NINODE).find? (fun ip =>
      (s.inode ip).ref > 0 ∧ (s.inode ip).dev = dev ∧ (s.inode ip).inum = inum) with
  | some ip => .ok (ip, s.setInode ip { s.inode ip with ref := (s.inode ip).ref + 1 })
  | none =>
    match (List.finRange NINODE).find? (fun ip => (s.inode ip).ref = 0) with
    | none => .error (.panic "iget: no inodes")
    | some ip =>
      .ok (ip, s.setInode ip { s.inode ip with dev, inum, ref := 1, valid := false })

def idup (s : IcacheSys ι) (ip : InodeId) : IcacheSys ι :=
  s.setInode ip { s.inode ip with ref := (s.inode ip).ref + 1 }

def ialloc (s : IcacheSys ι) (dev inum : BitVec 32) (type : BitVec 16) : IcacheSys ι :=
  s.setDinode dev inum (.fresh type)

-- ilock up to acquiresleep
def ilock (s : IcacheSys ι) (u : ι) (ip : InodeId) : Except Fault (IcacheSys ι) :=
  if (s.inode ip).ref < 1 then
    .error (.panic "ilock")
  else
    .ok (s.setPc u (.wants ip))

-- the rest of ilock
def ilockLoad (s : IcacheSys ι) (u : ι) (ip : InodeId) : Except Fault (IcacheSys ι) :=
  if (s.inode ip).valid = false then
    let s := s.setInode ip { s.inode ip with data := s.dip ip, valid := true }
    if (s.inode ip).data.type = 0 then
      .error (.panic "ilock: no type")
    else
      .ok (s.setPc u (.editing ip false))
  else
    .ok (s.setPc u (.editing ip false))

def iupdate (s : IcacheSys ι) (ip : InodeId) : IcacheSys ι :=
  s.setDinode (s.inode ip).dev (s.inode ip).inum (s.inode ip).data

def holdingsleep (s : IcacheSys ι) (u : ι) (ip : InodeId) : Bool := s.lock ip = some u

def iunlock (s : IcacheSys ι) (u : ι) (ip : InodeId) : Except Fault (IcacheSys ι) :=
  if s.holdingsleep u ip = false ∨ (s.inode ip).ref < 1 then
    .error (.panic "iunlock")
  else
    .ok ((s.setLock ip none).setPc u (.holds ip))

-- what iput finds out while it has the sleep lock
def iputCheck (s : IcacheSys ι) (ip : InodeId) : Pc :=
  if (s.inode ip).valid = true ∧ (s.inode ip).data.nlink = 0 ∧ (s.inode ip).ref = 1 then
    .freeing ip
  else
    .unlocking ip

-- the last region of iput
def iputDrop (s : IcacheSys ι) (ip : InodeId) : IcacheSys ι :=
  s.setInode ip { s.inode ip with ref := (s.inode ip).ref - 1 }

inductive Event (ι : Type) where
  | ialloc (u : ι) (dev inum : BitVec 32) (type : BitVec 16)
  | iget (u : ι) (dev inum : BitVec 32)
  | idup (u v : ι)
  | ilock (u : ι)
  | store (u : ι) (data : Icache.Dinode)
  | iupdate (u : ι)
  | iunlock (u : ι)
  | iput (u : ι)

inductive Step (s : IcacheSys ι) : Event ι → IcacheSys ι → Prop where
  | ialloc {u dev inum type} :
      s.pc u = .idle → (s.dinode (dev, inum)).type = 0 →
        Step s (.ialloc u dev inum type) ((s.ialloc dev inum type).setPc u (.ialloc dev inum))
  | iget {u dev inum ip t} :
      s.pc u = .idle ∨ s.pc u = .ialloc dev inum → s.iget dev inum = .ok (ip, t) →
        Step s (.iget u dev inum) (t.setPc u (.holds ip))
  -- a second reference, from one that is there
  | idup {u v ip} :
      s.pc u = .idle → (s.pc v).ref = some ip →
        Step s (.idup u v) ((s.idup ip).setPc u (.holds ip))
  | ilock {u ip t} : s.pc u = .holds ip → s.ilock u ip = .ok t → Step s (.ilock u) t
  | ilockAcquire {u ip} :
      s.pc u = .wants ip → s.lock ip = none →
        Step s (.ilock u) ((s.setLock ip (some u)).setPc u (.locked ip))
  | ilockLoad {u ip t} : s.pc u = .locked ip → s.ilockLoad u ip = .ok t → Step s (.ilock u) t
  -- the holder of the lock changes fields
  | store {u ip changed data} :
      s.pc u = .editing ip changed →
        Step s (.store u data) ((s.setData ip data).setPc u (.editing ip true))
  | iupdate {u ip changed} :
      s.pc u = .editing ip changed →
        Step s (.iupdate u) ((s.iupdate ip).setPc u (.editing ip false))
  -- the holder has called iupdate after it has changed fields
  | iunlock {u ip t} : s.pc u = .editing ip false → s.iunlock u ip = .ok t → Step s (.iunlock u) t
  | iputAcquire {u ip} :
      s.pc u = .holds ip → s.lock ip = none →
        Step s (.iput u) ((s.setLock ip (some u)).setPc u (.iput ip))
  | iputCheck {u ip} : s.pc u = .iput ip → Step s (.iput u) (s.setPc u (s.iputCheck ip))
  | iputTrunc {u ip} :
      s.pc u = .freeing ip →
        Step s (.iput u) ((s.setData ip (s.inode ip).data.itrunc).setPc u (.truncating ip))
  | iputTruncUpdate {u ip} :
      s.pc u = .truncating ip → Step s (.iput u) ((s.iupdate ip).setPc u (.truncated ip))
  | iputType {u ip} :
      s.pc u = .truncated ip →
        Step s (.iput u) ((s.setData ip { (s.inode ip).data with type := 0 }).setPc u (.typing ip))
  | iputTypeUpdate {u ip} :
      s.pc u = .typing ip → Step s (.iput u) ((s.iupdate ip).setPc u (.freed ip))
  | iputInvalid {u ip} :
      s.pc u = .freed ip →
        Step s (.iput u) ((s.setInode ip { s.inode ip with valid := false }).setPc u (.unlocking ip))
  | iputRelease {u ip} :
      s.pc u = .unlocking ip → Step s (.iput u) ((s.setLock ip none).setPc u (.unlocked ip))
  | iputDrop {u ip} : s.pc u = .unlocked ip → Step s (.iput u) ((s.iputDrop ip).setPc u .idle)

abbrev EventRun (ok : IcacheSys ι → Event ι → Prop) (s : IcacheSys ι) (es : List (Event ι))
    (t : IcacheSys ι)
    : Prop :=
  Transition.Run Step ok s es t

structure Start (s : IcacheSys ι) : Prop where
  inode : ∀ ip, (s.inode ip).ref = 0
  lock : ∀ ip, s.lock ip = none
  pc : ∀ u, s.pc u = .idle

/--
A dinode without a type is ialloc's to take, so where ialloc is called (`A`) the holder of a lock
leaves the inode a type. Where it is not called, a holder can store what it likes.
-/
def Event.Keeps (A : Prop) : Event ι → Prop
  | .ialloc .. => A
  | .store _ data => A → data.type ≠ 0
  | _ => True

end IcacheSys
end Xv6
