import Mathlib.Logic.Function.Basic
import Xv6.Fs.Basic

/-!
What `fs.c` reads of the disk: the dinodes, the block map and the directories. `d` is the contents of
the disk as the buffer cache shows it.
-/

namespace Xv6

namespace Superblock

def iblock (sb : Superblock) (inum : Nat) : Nat :=
  inum / IPB + sb.inodestart

def bblock (sb : Superblock) (b : Nat) : Nat :=
  b / BPB + sb.bmapstart

end Superblock

namespace Fs

abbrev T_DIR : Nat := 1
abbrev T_FILE : Nat := 2

abbrev ROOTINO : Nat := 1
abbrev DIRSIZ : Nat := 14

abbrev Dinode := Bytes 64

namespace Dinode

def type (din : Dinode) : Nat := din.getLE 0 2
def major (din : Dinode) : Nat := din.getLE 2 2
def minor (din : Dinode) : Nat := din.getLE 4 2
def nlink (din : Dinode) : Nat := din.getLE 6 2
def size (din : Dinode) : Nat := (din.getWord 8).toNat

def addrs (din : Dinode) (i : Nat) : Nat := (din.getWord (12 + 4 * i)).toNat

def setType (din : Dinode) (x : Nat) : Dinode := din.setLE 0 2 x
def setNlink (din : Dinode) (x : Nat) : Dinode := din.setLE 6 2 x
def setSize (din : Dinode) (x : Nat) : Dinode := din.setWord 8 (BitVec.ofNat 32 x)

def setAddrs (din : Dinode) (i x : Nat) : Dinode := din.setWord (12 + 4 * i) (BitVec.ofNat 32 x)

end Dinode

abbrev Disk := Nat → Block

def Disk.dinode (d : Disk) (sb : Superblock) (inum : Nat) : Dinode :=
  (d (sb.iblock inum)).slice (inum % IPB * 64) 64

def ilock (d : Disk) (sb : Superblock) (inum : Nat) : Except Fault Dinode :=
  let ip := d.dinode sb inum
  if ip.type = 0 then
    .error (.panic "ilock: no type")
  else
    .ok ip

namespace Disk

def bit (d : Disk) (sb : Superblock) (b : Nat) : Bool :=
  ((d (sb.bblock b)).byte (b % BPB / 8)).getLsbD (b % BPB % 8)

def balloc (d : Disk) (sb : Superblock) : Except Fault (Nat × Disk) :=
  match (List.range sb.size).find? (fun b => !d.bit sb b) with
  | none => .error (.panic "balloc: out of blocks")
  | some b =>
    let buf := d (sb.bblock b)
    let byte := buf.byte (b % BPB / 8) ||| ((1 : BitVec 8) <<< (b % BPB % 8))
    let d : Disk := Function.update d (sb.bblock b) (buf.blit (b % BPB / 8) 1 (fun _ => byte))
    .ok (b, Function.update d b Bytes.zero)

def bmap (d : Disk) (sb : Superblock) (ip : Dinode) (bn : Nat)
    : Except Fault (Nat × Dinode × Disk) :=
  if bn < NDIRECT then
    if ip.addrs bn = 0 then do
      let (addr, d) ← d.balloc sb
      return (addr, ip.setAddrs bn addr, d)
    else
      .ok (ip.addrs bn, ip, d)
  else if bn - NDIRECT < NINDIRECT then do
    let (ip, d) ←
      if ip.addrs NDIRECT = 0 then do
        let (addr, d) ← d.balloc sb
        pure (ip.setAddrs NDIRECT addr, d)
      else
        .ok (ip, d)
    let a := d (ip.addrs NDIRECT)
    let addr := (a.getWord (4 * (bn - NDIRECT))).toNat
    if addr = 0 then
      let (addr, d) ← d.balloc sb
      let a := a.setWord (4 * (bn - NDIRECT)) (BitVec.ofNat 32 addr)
      return (addr, ip, Function.update d (ip.addrs NDIRECT) a)
    else
      return (addr, ip, d)
  else
    .error (.panic "bmap: out of range")

-- The block that bmap finds for block bn of a file without allocating one, 0 for none.
def mapped (d : Disk) (ip : Dinode) (bn : Nat) : Nat :=
  if bn < NDIRECT then
    ip.addrs bn
  else if ip.addrs NDIRECT = 0 then
    0
  else
    ((d (ip.addrs NDIRECT)).getWord (4 * (bn - NDIRECT))).toNat

-- Every iteration of readi copies at least one byte.
def readiLoop (sb : Superblock)
    : Nat → Disk → Dinode → Nat → Nat → Except Fault (List (BitVec 8) × Dinode × Disk)
  | 0, d, ip, _, _ => .ok ([], ip, d)
  | fuel + 1, d, ip, off, n =>
    if 0 < n then do
      let (b, ip, d) ← d.bmap sb ip (off / BSIZE)
      let m := min n (BSIZE - off % BSIZE)
      let part := (List.range m).map (fun i => (d b).byte (off % BSIZE + i))
      let (rest, ip, d) ← readiLoop sb fuel d ip (off + m) (n - m)
      return (part ++ rest, ip, d)
    else
      .ok ([], ip, d)

def readi (d : Disk) (sb : Superblock) (ip : Dinode) (off n : Nat)
    : Except Fault (Option (List (BitVec 8)) × Dinode × Disk) :=
  if off > ip.size ∨ off + n ≥ 2 ^ 32 then
    .ok (none, ip, d)
  else do
    let n := if off + n > ip.size then ip.size - off else n
    let (dst, ip, d) ← readiLoop sb n d ip off n
    return (some dst, ip, d)

end Disk

def strncmpEq : Nat → List (BitVec 8) → List (BitVec 8) → Bool
  | 0, _, _ => true
  | n + 1, s, t =>
    let a := s.headD 0
    let b := t.headD 0
    if a ≠ b then false
    else if a = 0 then true
    else strncmpEq n s.tail t.tail

def namecmpEq (s t : List (BitVec 8)) : Bool :=
  strncmpEq DIRSIZ s t

def direntInum (de : List (BitVec 8)) : Nat :=
  (de.getD 0 0).toNat + 256 * (de.getD 1 0).toNat

-- The loop of dirlookup from the given offset on, with the number and offset of the entry found.
def dirlookupLoop (sb : Superblock) (name : List (BitVec 8))
    : Nat → Disk → Dinode → Nat → Except Fault (Option (Nat × Nat))
  | 0, _, _, _ => .error .diverges
  | fuel + 1, d, dp, off =>
    if off < dp.size then do
      let (de, dp, d) ← d.readi sb dp off 16
      match de with
      | none => .error (.panic "dirlookup read")
      | some de =>
        if de.length ≠ 16 then
          .error (.panic "dirlookup read")
        else if direntInum de = 0 then
          dirlookupLoop sb name fuel d dp (off + 16)
        else if namecmpEq name (de.drop 2) then
          .ok (some (direntInum de, off))
        else
          dirlookupLoop sb name fuel d dp (off + 16)
    else
      .ok none

def dirlookup (d : Disk) (sb : Superblock) (dp : Dinode) (name : List (BitVec 8))
    : Except Fault (Option (Nat × Nat)) :=
  if dp.type ≠ T_DIR then
    .error (.panic "dirlookup not DIR")
  else
    dirlookupLoop sb name (dp.size + 1) d dp 0

end Fs
end Xv6
