import Xv6.Sysfile.Impl.Calls

/-!
What the functions of the inode layer leave alone: they change the inode cache and the blocks, and of
the calls that are recorded they make those of iput and log_write only.
-/

open Prog

namespace Xv6
namespace Sysfile

-- what no write to a file can break
structure Growing (I : Sys → Prop) : Prop where
  addrs : ∀ s ip i addr, I s → I (s.setAddrs ip i addr)
  size : ∀ s ip size, I s → I (s.setSize ip size)
  dinode : ∀ s inum x, I s → I (s.setDinode inum x)
  used : ∀ s b x, I s → I (s.setUsed b x)
  block : ∀ s b x, I s → I (s.setBlock b x)
  logWrite : ∀ s b, I s → I (s.record (.logWrite b))

namespace Growing

variable {I : Sys → Prop} (h : Growing I) (sb : Superblock) (devs : Devices)

include h

theorem logWrite_keeps (b : Nat) : Keeps I (Sysfile.logWrite b) :=
  .modify fun s => h.logWrite s b

theorem balloc_keeps : Keeps I (balloc sb) := by
  unfold balloc
  refine .bind .get ?_
  intro s
  split
  . exact .throw _
  . refine .bind (.modify fun s => h.used s _ _) ?_
    intro _
    refine .bind (h.logWrite_keeps _) ?_
    intro _
    refine .bind (.modify fun s => h.block s _ _) ?_
    intro _
    refine .bind (h.logWrite_keeps _) ?_
    intro _
    exact .pure _

theorem iupdate_keeps (ip : InodeId) : Keeps I (iupdate sb ip) := by
  unfold iupdate
  refine .bind .get ?_
  intro s
  refine .bind (.modify fun s => h.dinode s _ _) ?_
  intro _
  exact h.logWrite_keeps _

theorem addrsAlloc_keeps (ip : InodeId) (i : Fin (NDIRECT + 1)) : Keeps I (addrsAlloc sb ip i) := by
  unfold addrsAlloc
  refine .bind .get ?_
  intro s
  refine .ite ?_ (.pure _)
  refine .bind (h.balloc_keeps sb) ?_
  intro addr
  refine .bind (.modify fun s => h.addrs s _ _ _) ?_
  intro _
  exact .pure _

theorem bmap_keeps (ip : InodeId) (bn : Nat) : Keeps I (bmap sb ip bn) := by
  unfold bmap
  split
  . exact h.addrsAlloc_keeps sb ip _
  . refine .ite ?_ (.throw _)
    refine .bind (h.addrsAlloc_keeps sb ip _) ?_
    intro addr
    refine .bind .get ?_
    intro s
    refine .ite ?_ (.pure _)
    refine .bind (h.balloc_keeps sb) ?_
    intro word
    refine .bind (.modify fun s => h.block s _ _) ?_
    intro _
    refine .bind (h.logWrite_keeps _) ?_
    intro _
    exact .pure _

theorem writeiLoop_keeps (ip : InodeId) (fuel : Nat) (src : List Byte) (off : Nat)
    : Keeps I (writeiLoop sb ip fuel src off) := by
  induction fuel generalizing src off with
  | zero => exact .pure _
  | succ fuel ih =>
    unfold writeiLoop
    refine .ite ?_ (.pure _)
    refine .bind (h.bmap_keeps sb ip _) ?_
    intro addr
    refine .bind (.modify fun s => h.block s _ _) ?_
    intro _
    refine .bind (h.logWrite_keeps _) ?_
    intro _
    exact ih _ _

theorem writei_keeps (ip : InodeId) (src : List Byte) (off : Nat)
    : Keeps I (writei sb devs ip src off) := by
  unfold writei
  refine .bind .get ?_
  intro s
  refine .ite ?_ (.ite (.pure _) (.ite (.pure _) ?_))
  . split
    . exact .pure _
    . exact .pure _
  . refine .bind (h.writeiLoop_keeps sb ip _ _ _) ?_
    intro _
    refine .bind (.when ?_) ?_
    . refine .bind (.modify fun s => h.size s _ _) ?_
      intro _
      exact h.iupdate_keeps sb ip
    . intro _
      exact .pure _

end Growing

structure Stable (I : Sys → Prop) : Prop where
  inode : ∀ s ip x, I s → I (s.setInode ip x)
  locked : ∀ s ip x, I s → I (s.setLocked ip x)
  dinode : ∀ s inum x, I s → I (s.setDinode inum x)
  used : ∀ s b x, I s → I (s.setUsed b x)
  block : ∀ s b x, I s → I (s.setBlock b x)
  iput : ∀ s, I s → I (s.record .iput)
  logWrite : ∀ s b, I s → I (s.record (.logWrite b))

namespace Stable

variable {I : Sys → Prop} (h : Stable I) (sb : Superblock) (devs : Devices)

include h

theorem growing : Growing I where
  addrs := fun s ip _ _ => h.inode s ip _
  size := fun s ip _ => h.inode s ip _
  dinode := h.dinode
  used := h.used
  block := h.block
  logWrite := h.logWrite

theorem logWrite_keeps (b : Nat) : Keeps I (Sysfile.logWrite b) := h.growing.logWrite_keeps b

theorem iupdate_keeps (ip : InodeId) : Keeps I (iupdate sb ip) := h.growing.iupdate_keeps sb ip

theorem writei_keeps (ip : InodeId) (src : List Byte) (off : Nat)
    : Keeps I (writei sb devs ip src off) :=
  h.growing.writei_keeps sb devs ip src off

theorem bfree_keeps (addr : BitVec 32) : Keeps I (bfree sb addr) := by
  unfold bfree
  refine .bind .get ?_
  intro s
  refine .ite (.throw _) ?_
  refine .bind (.modify fun s => h.used s _ _) ?_
  intro _
  exact h.logWrite_keeps _

theorem iget_keeps (dev inum : BitVec 32) : Keeps I (iget dev inum) := by
  unfold iget
  refine .bind .get ?_
  intro s
  split
  . refine .bind (.modify fun s => h.inode s _ _) ?_
    intro _
    exact .pure _
  . split
    . exact .throw _
    . refine .bind (.modify fun s => h.inode s _ _) ?_
      intro _
      exact .pure _

theorem idup_keeps (ip : InodeId) : Keeps I (idup ip) := by
  unfold idup
  refine .bind (.modify fun s => h.inode s _ _) ?_
  intro _
  exact .pure _

theorem ialloc_keeps (dev : BitVec 32) (type : BitVec 16) : Keeps I (ialloc sb dev type) := by
  unfold ialloc
  refine .bind .get ?_
  intro s
  split
  . exact .throw _
  . refine .bind (.modify fun s => h.dinode s _ _) ?_
    intro _
    refine .bind (h.logWrite_keeps _) ?_
    intro _
    exact h.iget_keeps _ _

theorem acquiresleep_keeps (ip : InodeId) : Keeps I (acquiresleep ip) := by
  unfold acquiresleep
  refine .bind .get ?_
  intro s
  exact .ite (.throw _) (.modify fun s => h.locked s _ _)

theorem releasesleep_keeps (ip : InodeId) : Keeps I (releasesleep ip) :=
  .modify fun s => h.locked s _ _

theorem ilock_keeps (ip : InodeId) : Keeps I (ilock ip) := by
  unfold ilock
  refine .bind .get ?_
  intro s
  refine .ite (.throw _) ?_
  refine .bind (h.acquiresleep_keeps ip) ?_
  intro _
  refine .when ?_
  refine .bind (.modify fun s => h.inode s _ _) ?_
  intro _
  exact .when (.throw _)

theorem iunlock_keeps (ip : InodeId) : Keeps I (iunlock ip) := by
  unfold iunlock
  refine .bind .get ?_
  intro s
  exact .ite (.throw _) (h.releasesleep_keeps ip)

theorem bfreeList_keeps (l : List (BitVec 32)) : Keeps I (bfreeList sb l) := by
  induction l with
  | nil => exact .pure _
  | cons addr l ih =>
    unfold bfreeList
    refine .bind (.when (h.bfree_keeps sb addr)) ?_
    intro _
    exact ih

theorem itruncDirect_keeps (ip : InodeId) (l : List (Fin NDIRECT))
    : Keeps I (itruncDirect sb ip l) := by
  induction l with
  | nil => exact .pure _
  | cons i l ih =>
    unfold itruncDirect
    refine .bind .get ?_
    intro s
    refine .bind (.when ?_) ?_
    . refine .bind (h.bfree_keeps sb _) ?_
      intro _
      exact .modify fun s => h.inode s _ _
    . intro _
      exact ih

theorem itrunc_keeps (ip : InodeId) : Keeps I (itrunc sb ip) := by
  unfold itrunc
  refine .bind (h.itruncDirect_keeps sb ip _) ?_
  intro _
  refine .bind .get ?_
  intro s
  refine .bind (.when ?_) ?_
  . refine .bind (h.bfreeList_keeps sb _) ?_
    intro _
    refine .bind (h.bfree_keeps sb _) ?_
    intro _
    exact .modify fun s => h.inode s _ _
  . intro _
    refine .bind (.modify fun s => h.inode s _ _) ?_
    intro _
    exact h.iupdate_keeps sb ip

theorem iput_keeps (ip : InodeId) : Keeps I (Sysfile.iput sb ip) := by
  unfold Sysfile.iput
  refine .bind (.modify h.iput) ?_
  intro _
  refine .bind (h.acquiresleep_keeps ip) ?_
  intro _
  refine .bind .get ?_
  intro s
  refine .bind (.when ?_) ?_
  . refine .bind (h.itrunc_keeps sb ip) ?_
    intro _
    refine .bind (.modify fun s => h.inode s _ _) ?_
    intro _
    refine .bind (h.iupdate_keeps sb ip) ?_
    intro _
    exact .modify fun s => h.inode s _ _
  . intro _
    refine .bind (h.releasesleep_keeps ip) ?_
    intro _
    exact .modify fun s => h.inode s _ _

theorem iunlockput_keeps (ip : InodeId) : Keeps I (iunlockput sb ip) := by
  unfold iunlockput
  refine .bind (h.iunlock_keeps ip) ?_
  intro _
  exact h.iput_keeps sb ip

theorem readiLoop_keeps (ip : InodeId) (fuel off n : Nat)
    : Keeps I (readiLoop sb ip fuel off n) := by
  induction fuel generalizing off n with
  | zero => exact .pure _
  | succ fuel ih =>
    unfold readiLoop
    refine .ite ?_ (.pure _)
    refine .bind (h.growing.bmap_keeps sb ip _) ?_
    intro addr
    refine .bind .get ?_
    intro s
    refine .bind (ih _ _) ?_
    intro rest
    exact .pure _

theorem readi_keeps (ip : InodeId) (off n : Nat) : Keeps I (readi sb devs ip off n) := by
  unfold readi
  refine .bind .get ?_
  intro s
  refine .ite ?_ (.ite (.pure _) ?_)
  . split
    . exact .pure _
    . exact .pure _
  . refine .bind (h.readiLoop_keeps sb ip _ _ _) ?_
    intro dst
    exact .pure _

theorem readDirent_keeps (dp : InodeId) (off : Nat) (msg : String)
    : Keeps I (readDirent sb devs dp off msg) := by
  unfold readDirent
  refine .bind (h.readi_keeps sb devs dp _ _) ?_
  intro de
  split
  . exact .throw _
  . exact .ite (.throw _) (.pure _)

theorem dirlookup_keeps (dp : InodeId) (name : Name) : Keeps I (dirlookup sb devs dp name) := by
  have hloop : ∀ k off, Keeps I (dirlookupLoop sb devs dp name k off) := by
    intro k
    induction k with
    | zero => exact fun _ => .pure _
    | succ k ih =>
      intro off
      unfold dirlookupLoop
      refine .bind (h.readDirent_keeps sb devs dp _ _) ?_
      intro de
      refine .ite ?_ (ih _)
      refine .bind .get ?_
      intro s
      refine .bind (h.iget_keeps _ _) ?_
      intro ip
      exact .pure _
  unfold dirlookup
  refine .bind .get ?_
  intro s
  exact .ite (.throw _) (hloop _ _)

theorem dirlink_keeps (dp : InodeId) (name : Name) (inum : BitVec 32)
    : Keeps I (dirlink sb devs dp name inum) := by
  have hloop : ∀ k off, Keeps I (dirlinkLoop sb devs dp k off) := by
    intro k
    induction k with
    | zero => exact fun _ => .pure _
    | succ k ih =>
      intro off
      unfold dirlinkLoop
      refine .bind (h.readDirent_keeps sb devs dp _ _) ?_
      intro de
      exact .ite (.pure _) (ih _)
  unfold dirlink
  refine .bind (h.dirlookup_keeps sb devs dp name) ?_
  intro found
  split
  . refine .bind (h.iput_keeps sb _) ?_
    intro _
    exact .pure _
  . refine .bind .get ?_
    intro s
    refine .bind (hloop _ _) ?_
    intro off
    refine .bind (h.writei_keeps sb devs dp _ _) ?_
    intro r
    exact .ite (.throw _) (.pure _)

theorem namexLoop_keeps (nameiparent : Bool) (ip : InodeId) (l : List Name)
    : Keeps I (namexLoop sb devs nameiparent ip l) := by
  induction l generalizing ip with
  | nil =>
    unfold namexLoop
    refine .ite ?_ (.pure _)
    refine .bind (h.iput_keeps sb ip) ?_
    intro _
    exact .pure _
  | cons name rest ih =>
    have hfail : Keeps I (do iunlockput sb ip; return (none : Option (InodeId × Name))) := by
      refine .bind (h.iunlockput_keeps sb ip) ?_
      intro _
      exact .pure _
    unfold namexLoop
    refine .bind (h.ilock_keeps ip) ?_
    intro _
    refine .bind .get ?_
    intro s
    refine .ite hfail (.ite ?_ ?_)
    . refine .bind (h.iunlock_keeps ip) ?_
      intro _
      exact .pure _
    . refine .bind (h.dirlookup_keeps sb devs ip name) ?_
      intro found
      split
      . exact hfail
      . refine .bind (h.iunlockput_keeps sb ip) ?_
        intro _
        exact ih _

theorem namex_keeps (path : List Byte) (nameiparent : Bool)
    : Keeps I (namex sb devs path nameiparent) := by
  unfold namex
  refine .bind ?_ ?_
  . unfold namexStart
    refine .ite (h.iget_keeps _ _) ?_
    refine .bind .get ?_
    intro s
    split
    . exact .throw _
    . exact h.idup_keeps _
  . intro ip
    exact h.namexLoop_keeps sb devs nameiparent ip _

theorem namei_keeps (path : List Byte) : Keeps I (namei sb devs path) := by
  unfold namei
  refine .bind (h.namex_keeps sb devs path false) ?_
  intro r
  exact .pure _

theorem createNew_keeps (dp : InodeId) (name : Name) (type major minor : BitVec 16)
    : Keeps I (createNew sb devs dp name type major minor) := by
  have hdots : ∀ ip, Keeps I (createDots sb devs dp ip) := by
    intro ip
    unfold createDots
    refine .bind (.modify fun s => h.inode s _ _) ?_
    intro _
    refine .bind (h.iupdate_keeps sb dp) ?_
    intro _
    refine .bind .get ?_
    intro s
    refine .bind (h.dirlink_keeps sb devs ip dot _) ?_
    intro ok
    refine .bind (.when (.throw _)) ?_
    intro _
    refine .bind (h.dirlink_keeps sb devs ip dotdot _) ?_
    intro ok
    exact .when (.throw _)
  unfold createNew
  refine .bind .get ?_
  intro s
  refine .bind (h.ialloc_keeps sb _ type) ?_
  intro ip
  refine .bind (h.ilock_keeps ip) ?_
  intro _
  refine .bind (.modify fun s => h.inode s _ _) ?_
  intro _
  refine .bind (h.iupdate_keeps sb ip) ?_
  intro _
  refine .bind (.when (hdots ip)) ?_
  intro _
  refine .bind .get ?_
  intro s
  refine .bind (h.dirlink_keeps sb devs dp name _) ?_
  intro ok
  refine .bind (.when (.throw _)) ?_
  intro _
  refine .bind (h.iunlockput_keeps sb dp) ?_
  intro _
  exact .pure _

theorem create_keeps (path : List Byte) (type major minor : BitVec 16)
    : Keeps I (create sb devs path type major minor) := by
  unfold create
  refine .bind (h.namex_keeps sb devs path true) ?_
  intro r
  split
  . exact .pure _
  next dp name =>
    refine .bind (h.ilock_keeps dp) ?_
    intro _
    refine .bind (h.dirlookup_keeps sb devs dp name) ?_
    intro found
    split
    next ip off =>
      refine .bind (h.iunlockput_keeps sb dp) ?_
      intro _
      refine .bind (h.ilock_keeps ip) ?_
      intro _
      refine .bind .get ?_
      intro s
      refine .ite (.pure _) ?_
      refine .bind (h.iunlockput_keeps sb ip) ?_
      intro _
      exact .pure _
    next =>
      refine .bind (h.createNew_keeps sb devs dp name type major minor) ?_
      intro ip
      exact .pure _

theorem openInode_keeps (path : List Byte) (omode : BitVec 32)
    : Keeps I (openInode sb devs path omode) := by
  unfold openInode
  refine .ite (h.create_keeps sb devs path _ _ _) ?_
  refine .bind (h.namei_keeps sb devs path) ?_
  intro r
  split
  . exact .pure _
  next ip =>
    refine .bind (h.ilock_keeps ip) ?_
    intro _
    refine .bind .get ?_
    intro s
    refine .ite ?_ (.pure _)
    refine .bind (h.iunlockput_keeps sb ip) ?_
    intro _
    exact .pure _

theorem isdirempty_keeps (dp : InodeId) : Keeps I (isdirempty sb devs dp) := by
  have hloop : ∀ k off, Keeps I (isdiremptyLoop sb devs dp k off) := by
    intro k
    induction k with
    | zero => exact fun _ => .pure _
    | succ k ih =>
      intro off
      unfold isdiremptyLoop
      refine .bind (h.readDirent_keeps sb devs dp _ _) ?_
      intro de
      exact .ite (.pure _) (ih _)
  unfold isdirempty
  refine .bind .get ?_
  intro s
  exact hloop _ _

theorem chdirInode_keeps (path : Option (List Byte)) : Keeps I (chdirInode sb devs path) := by
  unfold chdirInode
  split
  . exact h.namei_keeps sb devs _
  . exact .pure _

theorem readAll_keeps (ip : InodeId) (off n : Nat) : Keeps I (readAll sb devs ip off n) := by
  unfold readAll
  refine .bind (h.readi_keeps sb devs ip off n) ?_
  intro r
  split
  . exact .pure _
  . exact .pure _

theorem loaduvm_keeps (ip : InodeId) (off filesz : BitVec 32)
    : Keeps I (loaduvm sb devs ip off filesz) := by
  have hloop : ∀ fuel off sz, Keeps I (loaduvmLoop sb devs ip fuel off sz) := by
    intro fuel
    induction fuel with
    | zero => exact fun _ _ => .pure _
    | succ fuel ih =>
      intro off sz
      unfold loaduvmLoop
      refine .ite ?_ (.pure _)
      refine .bind (h.readAll_keeps sb devs ip _ _) ?_
      intro r
      split
      . exact .pure _
      . exact ih _ _
  exact hloop _ _ _

theorem execInode_keeps (env : ExecEnv) (ip : InodeId) : Keeps I (execInode sb devs env ip) := by
  have hloop : ∀ k i off, Keeps I (execLoad sb devs env ip k i off) := by
    intro k
    induction k with
    | zero => exact fun _ _ => .pure _
    | succ k ih =>
      intro i off
      unfold execLoad
      refine .bind (h.readAll_keeps sb devs ip _ _) ?_
      intro r
      split
      . exact .pure _
      . refine .ite (ih _ _) (.ite (.pure _) ?_)
        refine .bind (h.loaduvm_keeps sb devs ip _ _) ?_
        intro ok
        exact .ite (.pure _) (ih _ _)
  unfold execInode
  refine .bind (h.readAll_keeps sb devs ip _ _) ?_
  intro r
  split
  . exact .pure _
  . exact .ite (.pure _) (hloop _ _ _)

end Stable

end Sysfile
end Xv6
